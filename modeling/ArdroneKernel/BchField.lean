import ArdroneKernel.BchInit
import ArdroneKernel.PrimitiveElement

/-!
# The table-driven field operations

`FieldTables` says what the exponentiation and logarithm tables of a
control structure have to hold for a primitive element. Every field
operation of the library then computes the operation of the field on bit
patterns below `2^m`, and every result is again such a pattern.
-/

namespace ArdroneKernel.BchField

open BitPolynomial PrimitiveElement BchInit

/-- The fold `(u&n)+(u>>m)` of `modulo` does not change the residue. -/
theorem fold_mod (m u : ℕ) : ((u&&&(2^m-1))+(u>>>m))%(2^m-1)=u%(2^m-1) := by
  rw [Nat.and_two_pow_sub_one_eq_mod,Nat.shiftRight_eq_div_pow]
  have hp := Nat.two_pow_pos m
  conv_rhs => rw [←Nat.mod_add_div u (2^m)]
  rw [show 2^m*(u/2^m)=(2^m-1)*(u/2^m)+u/2^m by
    rw [Nat.sub_mul,Nat.one_mul]
    have : u/2^m≤2^m*(u/2^m) := Nat.le_mul_of_pos_left _ hp
    omega]
  rw [show u%2^m+((2^m-1)*(u/2^m)+u/2^m)=u%2^m+u/2^m+(2^m-1)*(u/2^m) by omega,Nat.add_mul_mod_self_left]

/-- The loop of `modulo` computes the residue. -/
theorem moduloLoop_eq {m : ℕ} (hm : 0 < m) (fuel v : ℕ) (h : v≤fuel) :
    moduloLoop (2^m-1) m fuel v=v%(2^m-1) := by
  have hp : 2≤2^m := Nat.le_self_pow (Nat.ne_of_gt hm) 2
  induction fuel generalizing v with
  | zero =>
    obtain rfl : v=0 := by omega
    rfl
  | succ fuel ih =>
    rw [moduloLoop]
    split
    · next hle =>
      have hle' : ((v-(2^m-1))&&&(2^m-1))+((v-(2^m-1))>>>m)≤v-(2^m-1) := by
        rw [Nat.and_two_pow_sub_one_eq_mod,Nat.shiftRight_eq_div_pow]
        have h1 := Nat.mod_add_div (v-(2^m-1)) (2^m)
        have h2 : (v-(2^m-1))/2^m≤2^m*((v-(2^m-1))/2^m) :=
          Nat.le_mul_of_pos_left _ (by omega)
        omega
      rw [ih _ (by omega),fold_mod,←Nat.mod_eq_sub_mod hle]
    · next hlt => rw [Nat.mod_eq_of_lt (by omega)]

variable {F : Type*} [Field F] {α : F} {bch : BchControl}

/-- The tables of a control structure are those of the primitive element `α`. -/
structure FieldTables (α : F) (bch : BchControl) : Prop where
  /-- The field orders that the library accepts. -/
  range : 5 ≤ bch.m ∧ bch.m ≤ 15
  /-- The codeword size is the order of the element. -/
  n_eq : bch.n=2^bch.m-1
  /-- The element is primitive. -/
  prim : IsPrimitive α bch.m
  /-- The exponentiation table, with its last entry for the exponent `n`. -/
  pow : ∀ i≤bch.n, bch.aPowTab.getD i 0<2^bch.m ∧ bitSum α (bch.aPowTab.getD i 0)=α^i
  /-- The logarithm table on nonzero patterns. -/
  log : ∀ a, 0<a → a<2^bch.m → aLog bch a<bch.n ∧ α^aLog bch a=bitSum α a
  /-- The logarithm table has zero for zero. -/
  log_zero : aLog bch 0=0

namespace FieldTables

theorem n_ge (h : FieldTables α bch) : 31≤bch.n := by
  have h5 := Nat.pow_le_pow_right (n := 2) (by omega) h.range.1
  have hn := h.n_eq
  omega

theorem n_lt (h : FieldTables α bch) : bch.n<2^bch.m := by
  have hn := h.n_eq
  have hp := Nat.two_pow_pos bch.m
  omega

theorem ne_zero (h : FieldTables α bch) : α≠0 := h.prim.ne_zero (by have := h.range; omega)

theorem pow_n (h : FieldTables α bch) : α^bch.n=1 := by rw [h.n_eq,h.prim.pow_order]

theorem modulo_eq (h : FieldTables α bch) (v : ℕ) : modulo bch v=v%bch.n := by
  have hr := h.range
  unfold modulo
  rw [h.n_eq,moduloLoop_eq (by omega) v v le_rfl]

theorem modulo_lt (h : FieldTables α bch) (v : ℕ) : modulo bch v<bch.n := by
  have hn := h.n_ge
  rw [h.modulo_eq]
  exact Nat.mod_lt _ (by omega)

theorem pow_modulo (h : FieldTables α bch) (v : ℕ) : α^modulo bch v=α^v := by
  rw [h.modulo_eq,h.n_eq,h.prim.pow_mod]

theorem modS_lt {v : ℕ} (hv : v<2*bch.n) : modS bch v<bch.n := by
  unfold modS
  split <;> omega

theorem pow_modS (h : FieldTables α bch) (v : ℕ) : α^modS bch v=α^v := by
  unfold modS
  split
  · rfl
  · next hge =>
    conv_rhs => rw [show v=v-bch.n+bch.n by omega,pow_add,h.pow_n,mul_one]

/-- A bounded exponent reads the power from the table. -/
theorem pow_lt (h : FieldTables α bch) {i : ℕ} (hi : i≤bch.n) : bch.aPowTab.getD i 0<2^bch.m :=
  (h.pow i hi).1

theorem bitSum_pow (h : FieldTables α bch) {i : ℕ} (hi : i≤bch.n) :
    bitSum α (bch.aPowTab.getD i 0)=α^i :=
  (h.pow i hi).2

theorem aPow_lt (h : FieldTables α bch) (i : ℕ) : aPow bch i<2^bch.m :=
  h.pow_lt (h.modulo_lt i).le

theorem bitSum_aPow (h : FieldTables α bch) (i : ℕ) : bitSum α (aPow bch i)=α^i := by
  rw [aPow,h.bitSum_pow (h.modulo_lt i).le,h.pow_modulo]

variable {a : ℕ}

theorem aLog_lt (h : FieldTables α bch) (ha : a<2^bch.m) : aLog bch a<bch.n := by
  rcases Nat.eq_zero_or_pos a with rfl | hp
  · rw [h.log_zero]
    have := h.n_ge
    omega
  · exact (h.log a hp ha).1

theorem pow_aLog (h : FieldTables α bch) (h0 : a≠0) (ha : a<2^bch.m) :
    α^aLog bch a=bitSum α a :=
  (h.log a (Nat.pos_of_ne_zero h0) ha).2

/-- A pattern is zero exactly when its element is. -/
theorem bitSum_eq_zero (h : FieldTables α bch) (ha : a<2^bch.m) :
    bitSum α a=0 ↔ a=0 := by
  constructor
  · exact h.prim.indep a ha
  · rintro rfl
    exact bitSum_zero α

theorem bitSum_ne_zero (h : FieldTables α bch) (h0 : a≠0) (ha : a<2^bch.m) :
    bitSum α a≠0 := fun hz => h0 ((h.bitSum_eq_zero ha).mp hz)

/-- The logarithm of a power below the order is the exponent. -/
theorem aLog_eq (h : FieldTables α bch) {a i : ℕ} (ha : a<2^bch.m) (hi : i<bch.n)
    (he : bitSum α a=α^i) : aLog bch a=i := by
  have h0 : a≠0 := by
    rintro rfl
    exact pow_ne_zero i h.ne_zero he.symm
  have hl := h.aLog_lt ha
  have hn := h.n_eq
  apply h.prim.pow_inj (by omega) (by omega)
  rw [h.pow_aLog h0 ha,he]

theorem gfMul_lt (h : FieldTables α bch) {a b : ℕ} (ha : a<2^bch.m) (hb : b<2^bch.m) :
    gfMul bch a b<2^bch.m := by
  unfold gfMul
  split
  · apply h.pow_lt
    apply (modS_lt _).le
    have := h.aLog_lt ha
    have := h.aLog_lt hb
    omega
  · exact Nat.two_pow_pos _

/-- `gf_mul` multiplies. -/
theorem bitSum_gfMul (h : FieldTables α bch) {a b : ℕ} (ha : a<2^bch.m) (hb : b<2^bch.m) :
    bitSum α (gfMul bch a b)=bitSum α a*bitSum α b := by
  unfold gfMul
  split
  · next hab =>
    have hla := h.aLog_lt ha
    have hlb := h.aLog_lt hb
    rw [h.bitSum_pow (modS_lt (by omega)).le,h.pow_modS,pow_add,h.pow_aLog hab.1 ha,
      h.pow_aLog hab.2 hb]
  · next hab =>
    have hz : a=0 ∨ b=0 := by tauto
    rcases hz with rfl | rfl <;> simp

theorem gfSqr_eq (bch : BchControl) (a : ℕ) : gfSqr bch a=gfMul bch a a := by
  unfold gfSqr gfMul
  simp only [and_self,Nat.two_mul]

theorem gfSqr_lt (h : FieldTables α bch) (ha : a<2^bch.m) : gfSqr bch a<2^bch.m := by
  rw [gfSqr_eq]
  exact h.gfMul_lt ha ha

/-- `gf_sqr` squares. -/
theorem bitSum_gfSqr (h : FieldTables α bch) (ha : a<2^bch.m) :
    bitSum α (gfSqr bch a)=bitSum α a^2 := by
  rw [gfSqr_eq,h.bitSum_gfMul ha ha,pow_two]

theorem gfDiv_lt (h : FieldTables α bch) {a b : ℕ} (ha : a<2^bch.m) (hb : b<2^bch.m) :
    gfDiv bch a b<2^bch.m := by
  unfold gfDiv
  split
  · apply h.pow_lt
    apply (modS_lt _).le
    have := h.aLog_lt ha
    omega
  · exact Nat.two_pow_pos _

/-- `gf_div` divides by a nonzero element. -/
theorem bitSum_gfDiv (h : FieldTables α bch) {a b : ℕ} (ha : a<2^bch.m) (h0 : b≠0)
    (hb : b<2^bch.m) : bitSum α (gfDiv bch a b)=bitSum α a/bitSum α b := by
  unfold gfDiv
  split
  · next ha0 =>
    have hla := h.aLog_lt ha
    have hlb := h.aLog_lt hb
    rw [h.bitSum_pow (modS_lt (by omega)).le,h.pow_modS,eq_div_iff (h.bitSum_ne_zero h0 hb),
      ←h.pow_aLog h0 hb,←pow_add,show aLog bch a+bch.n-aLog bch b+aLog bch b=aLog bch a+bch.n by omega,
      pow_add,h.pow_n,mul_one,h.pow_aLog ha0 ha]
  · next hz =>
    have ha0 : a=0 := by tauto
    rw [ha0,bitSum_zero,zero_div]

theorem gfInv_lt (h : FieldTables α bch) (a : ℕ) : gfInv bch a<2^bch.m :=
  h.pow_lt (Nat.sub_le _ _)

/-- `gf_inv` inverts a nonzero element. -/
theorem bitSum_gfInv (h : FieldTables α bch) (h0 : a≠0) (ha : a<2^bch.m) :
    bitSum α (gfInv bch a)=(bitSum α a)⁻¹ := by
  have hla := h.aLog_lt ha
  rw [gfInv,h.bitSum_pow (Nat.sub_le _ _)]
  apply eq_inv_of_mul_eq_one_left
  rw [←h.pow_aLog h0 ha,←pow_add,show bch.n-aLog bch a+aLog bch a=bch.n by omega,h.pow_n]

theorem aIlog_lt (h : FieldTables α bch) (a : ℕ) : aIlog bch a<bch.n := by
  apply modS_lt
  have := h.n_ge
  omega

/-- `a_ilog` is the logarithm of the inverse. -/
theorem pow_aIlog (h : FieldTables α bch) (h0 : a≠0) (ha : a<2^bch.m) :
    α^aIlog bch a=(bitSum α a)⁻¹ := by
  rw [aIlog,h.pow_modS,←h.bitSum_gfInv h0 ha,gfInv,h.bitSum_pow (Nat.sub_le _ _)]

end FieldTables
end ArdroneKernel.BchField
