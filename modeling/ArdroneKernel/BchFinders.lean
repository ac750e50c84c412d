import ArdroneKernel.BchForms

/-!
# The root finders on the field of the library

A field element is a word below `2^m`, and the roots of a polynomial are the
words at which its value, computed with the functions of the library, is
zero. The finders of the degrees one to four are exact for these roots.
-/

namespace ArdroneKernel.BchFinders

open Polynomial BitPolynomial PrimitivePolynomial ArrayList BchInit BchField BchDecode BchPolynomial
  BchSmallDegree BchAcceptance

/-- The value of a polynomial, from its highest term on. -/
def polyValue (bch : BchControl) (c : List ℕ) (x : ℕ) : ℕ := c.foldr (fun a v => a^^^gfMul bch x v) 0

/-- The nonzero roots of a polynomial. -/
def nonzeroRoots (bch : BchControl) (c : List ℕ) : Finset ℕ :=
  (Finset.range (2^bch.m)).filter fun x => x≠0 ∧ polyValue bch c x=0

/-- The exponent is the discrete logarithm of the inverse of `x`. -/
def IsLogInverse (bch : BchControl) (l x : ℕ) : Prop := l<bch.n ∧ gfMul bch (aPow bch l) x=1

/-- The finder that `find_poly_roots` calls for a degree. -/
def findSmallRoots (bch : BchControl) (d : ℕ) (c : List ℕ) : List ℕ :=
  match d with
  | 1 => findPolyDeg1Roots bch c
  | 2 => findPolyDeg2Roots bch c
  | 3 => findPolyDeg3Roots bch c
  | 4 => findPolyDeg4Roots bch c
  | _ => []

variable {F : Type*} [Field F] [CharP F 2] {α : F} {bch : BchControl}

/-- Different words are different elements. -/
theorem bitSum_injective (h : FieldTables α bch) {x y : ℕ} (hx : x<2^bch.m) (hy : y<2^bch.m)
    (he : bitSum α x=bitSum α y) : x=y := by
  have hz : bitSum α (x^^^y)=0 := by rw [bitSum_xor,he,CharTwo.add_self_eq_zero]
  exact Nat.xor_eq_zero_iff.mp ((h.bitSum_eq_zero (Nat.xor_lt_two_pow hx hy)).mp hz)

theorem bitSum_eq_one (h : FieldTables α bch) {x : ℕ} (hx : x<2^bch.m) :
    bitSum α x=1 ↔ x=1 := by
  have hr := h.range
  have h1 : 1<2^bch.m := Nat.one_lt_two_pow (by omega)
  refine ⟨fun he => bitSum_injective h hx h1 (by rw [he,bitSum_one]),?_⟩
  rintro rfl
  exact bitSum_one α

theorem polyValue_spec (h : FieldTables α bch) {c : List ℕ} (hs : ∀ a ∈ c, a<2^bch.m) {x : ℕ}
    (hx : x<2^bch.m) : polyValue bch c x<2^bch.m ∧
      bitSum α (polyValue bch c x)=(listPoly α c).eval (bitSum α x) := by
  induction c with
  | nil => exact ⟨Nat.two_pow_pos _,by simp [polyValue,listPoly,bitSum_zero]⟩
  | cons a c ih =>
    obtain ⟨hlt,hv⟩ := ih fun b hb => hs b (List.mem_cons_of_mem _ hb)
    have hstep : polyValue bch (a::c) x=a^^^gfMul bch x (polyValue bch c x) := rfl
    rw [hstep]
    refine ⟨Nat.xor_lt_two_pow (hs a List.mem_cons_self) (h.gfMul_lt hx hlt),?_⟩
    rw [bitSum_xor,h.bitSum_gfMul hx hlt,hv,BchRoots.listPoly_cons]
    simp

/-- The roots among the words are roots in the field. -/
theorem mem_nonzeroRoots (h : FieldTables α bch) {c : List ℕ} (hs : ∀ a ∈ c, a<2^bch.m) {x : ℕ} :
    x ∈ nonzeroRoots bch c ↔ x<2^bch.m ∧ bitSum α x≠0 ∧ (listPoly α c).eval (bitSum α x)=0 := by
  rw [nonzeroRoots,Finset.mem_filter,Finset.mem_range]
  apply and_congr_right
  intro hx
  obtain ⟨hlt,hv⟩ := polyValue_spec h hs hx
  rw [←hv,h.bitSum_eq_zero hlt]
  exact and_congr (not_congr (h.bitSum_eq_zero hx).symm) Iff.rfl

omit [CharP F 2] in
/-- The nonzero leading entry stands at the degree. -/
theorem degree_of_lead (h : FieldTables α bch) {c : List ℕ} {d : ℕ} (hlen : c.length=d+1)
    (hs : ∀ a ∈ c, a<2^bch.m) (hlead : c.getD d 0≠0) : (listPoly α c).degree=d := by
  apply degree_eq_of_le_of_coeff_ne_zero
  · rw [degree_le_iff_coeff_zero]
    intro i hi
    have hdi : d< i := by exact_mod_cast hi
    rw [coeff_listPoly,getD_of_length_le _ (by omega),bitSum_zero]
  · rw [coeff_listPoly]
    exact h.bitSum_ne_zero hlead (small_of_mem hs d)

/-- Exact lists of roots, read back at the words. -/
theorem exactRoots_words (h : FieldTables α bch) {c : List ℕ} {d : ℕ} (hs : ∀ a ∈ c, a<2^bch.m)
    (hd : (listPoly α c).degree=d) {L : List ℕ} (he : ExactRoots α bch.n d (listPoly α c) L) :
    (L.length=d ↔ (nonzeroRoots bch c).card=d) ∧ (L.length=d → L.Nodup ∧
      ∀ l, l ∈ L ↔ ∃ x ∈ nonzeroRoots bch c, IsLogInverse bch l x) := by
  classical
  have hmem := @mem_nonzeroRoots F _ _ α bch h c hs
  have hinj : Set.InjOn (bitSum α) (nonzeroRoots bch c : Set ℕ) := fun x hx y hy hxy =>
    bitSum_injective h (hmem.mp hx).1 (hmem.mp hy).1 hxy
  have hroots : ∀ y ∈ (nonzeroRoots bch c).image (bitSum α), y≠0 ∧ (listPoly α c).eval y=0 := by
    intro y hy
    obtain ⟨x,hx,rfl⟩ := Finset.mem_image.mp hy
    exact (hmem.mp hx).2
  have hcard := Finset.card_image_of_injOn hinj
  have hle := card_le_of_roots hd _ fun y hy => (hroots y hy).2
  have hinv : ∀ l<bch.n, bitSum α (aPow bch (bch.n-l))=(α^l)⁻¹ := by
    intro l hl
    rw [h.bitSum_aPow]
    apply eq_inv_of_mul_eq_one_left
    rw [←pow_add,Nat.sub_add_cancel hl.le,h.pow_n]
  have hword : L.length=d → ∀ l ∈ L, aPow bch (bch.n-l) ∈ nonzeroRoots bch c := by
    intro hl l hlL
    obtain ⟨hn,hz⟩ := (he.sound hl).2 l hlL
    rw [hmem,hinv l hn]
    exact ⟨h.aPow_lt _,inv_ne_zero (pow_ne_zero l h.ne_zero),hz⟩
  have hdistinct : L.length=d → ∀ l ∈ L, ∀ l' ∈ L, aPow bch (bch.n-l)=aPow bch (bch.n-l') → l=l' := by
    intro hl l hlL l' hlL' heq
    have hn := ((he.sound hl).2 l hlL).1
    have hn' := ((he.sound hl).2 l' hlL').1
    have hp := congrArg (bitSum α) heq
    rw [hinv l hn,hinv l' hn',inv_inj] at hp
    rw [h.n_eq] at hn hn'
    exact h.prim.pow_inj hn hn' hp
  have hfull : L.length=d → (L.toFinset.image fun l => aPow bch (bch.n-l)) ⊆ nonzeroRoots bch c ∧
      (L.toFinset.image fun l => aPow bch (bch.n-l)).card=d := by
    intro hl
    refine ⟨?_,?_⟩
    · intro x hx
      obtain ⟨l,hlL,rfl⟩ := Finset.mem_image.mp hx
      exact hword hl l (List.mem_toFinset.mp hlL)
    · rw [Finset.card_image_of_injOn,List.toFinset_card_of_nodup (he.sound hl).1,hl]
      intro l hlL l' hlL' heq
      exact hdistinct hl l (List.mem_toFinset.mp hlL) l' (List.mem_toFinset.mp hlL') heq
  refine ⟨⟨fun hl => ?_,fun hc => ?_⟩,fun hl => ⟨(he.sound hl).1,fun l => ⟨fun hlL => ?_,?_⟩⟩⟩
  · obtain ⟨hsub,hcd⟩ := hfull hl
    have := Finset.card_le_card hsub
    omega
  · exact he.complete _ (by rw [hcard,hc]) (fun h0 => (hroots 0 h0).1 rfl) fun y hy => (hroots y hy).2
  · obtain ⟨hn,-⟩ := (he.sound hl).2 l hlL
    refine ⟨_,hword hl l hlL,hn,?_⟩
    rw [←bitSum_eq_one h (h.gfMul_lt (h.aPow_lt _) (h.aPow_lt _)),
      h.bitSum_gfMul (h.aPow_lt _) (h.aPow_lt _),hinv l hn,h.bitSum_aPow,
      mul_inv_cancel₀ (pow_ne_zero l h.ne_zero)]
  · rintro ⟨x,hx,hn,hone⟩
    -- the values stored already account for all roots
    obtain ⟨hsub,hcd⟩ := hfull hl
    have hall := Finset.eq_of_subset_of_card_le hsub (by omega)
    rw [←hall] at hx
    obtain ⟨l',hlL',rfl⟩ := Finset.mem_image.mp hx
    have hlL'' := List.mem_toFinset.mp hlL'
    obtain ⟨hn',-⟩ := (he.sound hl).2 l' hlL''
    have hp := congrArg (bitSum α) hone
    rw [h.bitSum_gfMul (h.aPow_lt _) (h.aPow_lt _),hinv l' hn',h.bitSum_aPow,bitSum_one,
      mul_inv_eq_one₀ (pow_ne_zero l' h.ne_zero)] at hp
    rw [h.n_eq] at hn hn'
    rw [h.prim.pow_inj hn hn' hp]
    exact hlL''

/-- For every field that `init_bch` builds, the finders of the degrees one
to four are exact: as many logarithms as the degree when there are that
many different nonzero roots, and then those of their inverses. -/
theorem findSmallRoots_exact {uninit : ℕ → ℕ → ℕ} {m t : ℤ} {primPoly : ℕ}
    (hb : initBch uninit m t primPoly=some bch)
    (hp : IsPrimitivePoly (bitPoly (choosePoly m.toNat primPoly))) {d : ℕ} (h1 : 1≤d) (h4 : d≤4)
    {c : List ℕ} (hlen : c.length=d+1) (hs : ∀ a ∈ c, a<2^bch.m) (hlead : c.getD d 0≠0) :
    (findSmallRoots bch d c).length≤d ∧
      ((findSmallRoots bch d c).length=d ↔ (nonzeroRoots bch c).card=d) ∧
      ((findSmallRoots bch d c).length=d → (findSmallRoots bch d c).Nodup ∧
        ∀ l, l ∈ findSmallRoots bch d c ↔ ∃ x ∈ nonzeroRoots bch c, IsLogInverse bch l x) := by
  have : Fact (Irreducible (bitPoly (choosePoly m.toNat primPoly))) := ⟨hp.1⟩
  have hchar : CharP (AdjoinRoot (bitPoly (choosePoly m.toNat primPoly))) 2 :=
    charP_adjoinRoot hp.1.natDegree_pos
  have hfin : Finite (AdjoinRoot (bitPoly (choosePoly m.toNat primPoly))) := finite_adjoinRoot hp.monic
  obtain ⟨h,hbase⟩ := initBch_tables hb hp
  have hsm := small_of_mem hs
  have hd := degree_of_lead h hlen hs hlead
  have hexact : ExactRoots (AdjoinRoot.root (bitPoly (choosePoly m.toNat primPoly))) bch.n d
      (listPoly (AdjoinRoot.root (bitPoly (choosePoly m.toNat primPoly))) c) (findSmallRoots bch d c) := by
    rcases d with _ | _ | _ | _ | _ | d
    · omega
    · exact findPolyDeg1Roots_exact h hsm hd
    · exact findPolyDeg2Roots_exact h hbase hsm hd
    · exact findPolyDeg3Roots_exact h hsm hd
    · exact findPolyDeg4Roots_exact h hsm hd
    · omega
  exact ⟨hexact.le,exactRoots_words h hs hd hexact⟩

/-- The quadratic with the roots one and two, over the field of 32 elements. -/
theorem findSmallRoots_exact_example : ∃ bch, initBch (fun _ _ => 0) 5 2 0=some bch ∧
    ((findSmallRoots bch 2 [2,3,1]).length=2 ↔ (nonzeroRoots bch [2,3,1]).card=2) := by
  obtain ⟨bch,hb⟩ : ∃ bch, initBch (fun _ _ => 0) 5 2 0=some bch := by
    apply Option.isSome_iff_exists.mp
    decide +kernel
  have hm : bch.m=5 := (initBch_built _ hb).2.1
  refine ⟨bch,hb,(findSmallRoots_exact hb (BchForms.primitive_of_initBch hb (by decide)) ?_ ?_ rfl ?_ ?_).2.1⟩
  · decide
  · decide
  · rw [hm]
    decide
  · decide

end ArdroneKernel.BchFinders
