import ArdroneKernel.BchEncodeCorrect
import ArdroneKernel.BchLocator
import ArdroneKernel.BchRoots

/-!
# The syndromes

`compute_syndromes` walks over the parity bits from the top word down.
After the extra bits of the last word are cleared, what it computes are
the values of the parity polynomial at the first `2t` powers of the
primitive element.
-/

namespace ArdroneKernel.BchSyndrome

open Polynomial BitPolynomial PackedPolynomial ArrayList BchInit BchDecode BchField BchPolynomial BchLocator

variable {F : Type*} [Field F] [CharP F 2] {α : F} {bch : BchControl} {syn : List ℕ}

/-- The syndrome buffer holds field elements. -/
def SynBuffer (bch : BchControl) (syn : List ℕ) : Prop := syn.length=2*bch.t ∧ Small bch.m syn

/-- One parity bit. -/
theorem synXor_spec (h : FieldTables α bch) (hs : SynBuffer bch syn) (e : ℕ) :
    SynBuffer bch (synXor bch e syn) ∧ ∀ j<bch.t, bitSum α ((synXor bch e syn).getD (2*j) 0)=
      bitSum α (syn.getD (2*j) 0)+(α^(2*j+1))^e := by
  obtain ⟨hl,hsm⟩ := hs
  have hg : ∀ j<syn.length, (synXor bch e syn).getD j 0=
      if j%2=0 then syn.getD j 0^^^aPow bch ((j+1)*e) else syn.getD j 0 := by
    intro j hj
    rw [synXor,getD_mapIdx _ _ _ hj]
  have hlen : (synXor bch e syn).length=syn.length := by rw [synXor,List.length_mapIdx]
  refine ⟨⟨by rw [hlen,hl],?_⟩,?_⟩
  · intro j
    rcases Nat.lt_or_ge j syn.length with hj | hj
    · rw [hg j hj]
      split
      · exact Nat.xor_lt_two_pow (hsm j) (h.aPow_lt _)
      · exact hsm j
    · rw [getD_of_length_le _ (by omega)]
      exact Nat.two_pow_pos _
  · intro j hj
    rw [hg _ (by omega),if_pos (by omega),bitSum_xor,h.bitSum_aPow,pow_mul]

/-- All bits of one parity word. The factor `x^d` makes the exponents of
the last word positive. -/
theorem synBits_spec (h : FieldTables α bch) (s : ℤ) (d k : ℕ) (hsd : s+d=32*k) (fuel poly : ℕ)
    (hs : SynBuffer bch syn) (hp : poly<2^fuel) (hlow : ∀ i, poly.testBit i=true → 0≤(i : ℤ)+s) :
    SynBuffer bch (synBits bch s fuel poly syn) ∧ ∀ j<bch.t,
      (α^(2*j+1))^d*bitSum α ((synBits bch s fuel poly syn).getD (2*j) 0)=
        (α^(2*j+1))^d*bitSum α (syn.getD (2*j) 0)+(α^(2*j+1))^(32*k)*bitSum (α^(2*j+1)) poly := by
  induction fuel generalizing poly syn with
  | zero =>
    obtain rfl : poly=0 := by omega
    rw [synBits]
    exact ⟨hs,fun j _ => by rw [bitSum_zero,mul_zero,add_zero]⟩
  | succ fuel ih =>
    rw [synBits]
    by_cases h0 : poly=0
    · subst h0
      rw [if_neg (not_not.mpr rfl)]
      exact ⟨hs,fun j _ => by rw [bitSum_zero,mul_zero,add_zero]⟩
    · rw [if_pos h0]
      have hlog := (Nat.log2_eq_iff h0).mp (rfl : Nat.log2 poly=deg poly)
      have hshift : 1<<<deg poly=2^deg poly := by rw [Nat.shiftLeft_eq,Nat.one_mul]
      have hdf : deg poly<fuel+1 := (Nat.pow_lt_pow_iff_right (by omega)).mp (lt_of_le_of_lt hlog.1 hp)
      have hbit : poly.testBit (deg poly)=true := by
        have hand := (BchTables.and_two_pow_ne_zero hlog.2).mpr hlog.1
        by_contra hne
        rw [Nat.and_two_pow] at hand
        have hne' : poly.testBit (Nat.log2 poly)=false := Bool.eq_false_iff.mpr hne
        simp [hne'] at hand
      have hrest : poly^^^(1<<<deg poly)<2^deg poly := by
        rw [hshift]
        exact BchTables.xor_lt_of_top hlog.1 hlog.2 (Nat.le_refl _) (Nat.pow_lt_pow_right (by omega) (by omega))
      have hpos := hlow _ hbit
      obtain ⟨hx,hxv⟩ := synXor_spec h hs ((deg poly : ℤ)+s).toNat
      obtain ⟨hr,hrv⟩ := ih (poly^^^(1<<<deg poly)) hx
        (lt_of_lt_of_le hrest (Nat.pow_le_pow_right (by omega) (by omega))) (by
          intro i hi
          apply hlow
          rw [Nat.testBit_xor,hshift,Nat.testBit_two_pow] at hi
          by_cases hid : deg poly=i
          · rw [←hid]
            exact hbit
          · simpa [hid] using hi)
      refine ⟨hr,fun j hj => ?_⟩
      have hsplit : ∀ x : F, bitSum x poly=bitSum x (poly^^^(1<<<deg poly))+x^deg poly := by
        intro x
        rw [bitSum_xor,hshift,bitSum_two_pow,add_assoc,CharTwo.add_self_eq_zero,add_zero]
      have hexp : d+((deg poly : ℤ)+s).toNat=32*k+deg poly := by omega
      rw [hrv j hj,hxv j hj,hsplit (α^(2*j+1)),mul_add,mul_add,←pow_add,hexp,pow_add]
      ring

/-- All parity words: what is added is the value of the packed words, up
to the unused places below the parity. -/
theorem synWords_spec [Algebra (ZMod 2) F] (h : FieldTables α bch) {d : ℕ} (hd : d<32) (k : ℕ)
    (ws : List ℕ) (s : ℤ) (hsd : s+d=32*k) (hk : 0<k) (hlen : k≤ws.length) (hf : Fits 32 ws)
    (hs : SynBuffer bch syn) (hlow : ∀ i<d, (ws.getD (k-1) 0).testBit i=false) :
    SynBuffer bch (synWords bch ws s syn) ∧ ∀ j<bch.t,
      (α^(2*j+1))^d*bitSum α ((synWords bch ws s syn).getD (2*j) 0)=
        (α^(2*j+1))^d*bitSum α (syn.getD (2*j) 0)+
          aeval (α^(2*j+1)) (packed 32 (ws.take k)) := by
  induction k generalizing ws syn s with
  | zero => omega
  | succ k ih =>
    cases ws with
    | nil => simp at hlen
    | cons w ws =>
      obtain ⟨hw,hws⟩ := fits_cons.mp hf
      rw [List.length_cons] at hlen
      rw [synWords]
      obtain ⟨hb,hbv⟩ := synBits_spec h (s-32) d k (by push_cast at hsd; omega) 32 w hs hw (by
        intro i hi
        by_contra hneg
        cases k with
        | zero =>
          have := hlow i (by push_cast at hsd; omega)
          rw [List.getD_cons_zero] at this
          rw [this] at hi
          cases hi
        | succ k => push_cast at hsd; omega)
      have hpk : (packed 32 ((w::ws).take (k+1)))=bitPoly w*X^(32*k)+packed 32 (ws.take k) := by
        rw [List.take_succ_cons,packed_cons,List.length_take,Nat.min_eq_left (by omega)]
      by_cases hlast : k=0
      · subst hlast
        rw [if_neg (by push_cast at hsd; omega)]
        refine ⟨hb,fun j hj => ?_⟩
        rw [hbv j hj,hpk,List.take_zero,packed_nil,add_zero,Nat.mul_zero,pow_zero,pow_zero,one_mul,mul_one,aeval_bitPoly]
      · rw [if_pos (by push_cast at hsd; omega)]
        obtain ⟨hr,hrv⟩ := ih ws (s-32) (by push_cast at hsd ⊢; omega) (by omega) (by omega) hws hb (by
          intro i hi
          have := hlow i hi
          rwa [Nat.add_sub_cancel,show k=k-1+1 by omega,List.getD_cons_succ] at this)
        refine ⟨hr,fun j hj => ?_⟩
        rw [hrv j hj,hbv j hj,hpk,map_add,map_mul,map_pow,aeval_X,aeval_bitPoly]
        ring

omit [CharP F 2] in
/-- The squares give the even syndromes. -/
theorem synSquares_spec (h : FieldTables α bch) {f : ℕ → F} (hsq : ∀ j, f (2*j+1)=f j^2)
    (hs : SynBuffer bch syn) (heven : ∀ j<bch.t, bitSum α (syn.getD (2*j) 0)=f (2*j)) :
    SynBuffer bch (synSquares bch syn) ∧ ∀ i<2*bch.t, bitSum α ((synSquares bch syn).getD i 0)=f i := by
  have hloop : ∀ k≤bch.t, SynBuffer bch ((List.range k).foldl (fun syn j =>
      syn.set (2*j+1) (gfSqr bch (syn.getD j 0))) syn) ∧ ∀ i<2*bch.t, i%2=0 ∨ i<2*k →
      bitSum α (((List.range k).foldl (fun syn j => syn.set (2*j+1) (gfSqr bch (syn.getD j 0))) syn).getD i 0)=f i := by
    intro k
    induction k with
    | zero =>
      refine fun _ => ⟨hs,fun i hi hc => ?_⟩
      have hi2 : i=2*(i/2) := by omega
      rw [hi2]
      exact heven (i/2) (by omega)
    | succ k ih =>
      intro hk
      obtain ⟨⟨hl,hsm⟩,hv⟩ := ih (by omega)
      rw [List.range_succ,List.foldl_append,List.foldl_cons,List.foldl_nil]
      refine ⟨⟨by rw [List.length_set,hl],hsm.set _ (h.gfSqr_lt (hsm k))⟩,fun i hi hc => ?_⟩
      by_cases hik : 2*k+1=i
      · subst hik
        rw [getD_set_self _ _ (by omega),h.bitSum_gfSqr (hsm k),hsq,hv k (by omega) (by omega)]
      · rw [getD_set_ne _ _ _ hik]
        exact hv i hi (by omega)
  obtain ⟨h1,h2⟩ := hloop bch.t le_rfl
  exact ⟨h1,fun i hi => h2 i hi (by omega)⟩

section Parity

/-- The words hold the parity polynomial `v` in their top bits, and
anything below it. -/
structure Holds (bch : BchControl) (ws : List ℕ) (v : (ZMod 2)[X]) : Prop where
  /-- One word for every parity word. -/
  length : ws.length=eccWords bch
  /-- 32-bit words. -/
  fits : Fits 32 ws
  /-- The polynomial fits the parity bits. -/
  degree : v.degree<bch.eccBits
  /-- The top bits are the polynomial. -/
  poly : ∃ low : (ZMod 2)[X], low.degree<(32*eccWords bch-bch.eccBits : ℕ) ∧
    packed 32 ws=v*X^(32*eccWords bch-bch.eccBits)+low

/-- How many words the parity bits take. -/
def parityWords (bch : BchControl) : ℕ := (bch.eccBits+31)/32

/-- The mask for the last word clears what is below the parity. -/
theorem testBit_mask {m b : ℕ} (x : ℕ) (hx : x<2^32) :
    (x&&&(0xffffffff^^^((1<<<(32-m))-1))).testBit b=(x.testBit b && decide (32-m≤b)) := by
  have h1 : (1<<<(32-m))-1=2^(32-m)-1 := by rw [Nat.shiftLeft_eq,Nat.one_mul]
  have h2 : (0xffffffff : ℕ)=2^32-1 := by norm_num
  rw [Nat.testBit_and,Nat.testBit_xor,h1,h2,Nat.testBit_two_pow_sub_one,Nat.testBit_two_pow_sub_one]
  rcases Nat.lt_or_ge b 32 with hb | hb
  · by_cases hlt : b<32-m
    · rw [decide_eq_true hlt,decide_eq_true hb,decide_eq_false (Nat.not_le.mpr hlt)]
      rfl
    · rw [decide_eq_false hlt,decide_eq_true hb,decide_eq_true (Nat.not_lt.mp hlt)]
      rfl
  · rw [Nat.testBit_lt_two_pow (lt_of_lt_of_le hx (Nat.pow_le_pow_right (by omega) hb))]
    rfl

variable {v : (ZMod 2)[X]}

/-- The masked words are the parity polynomial, moved to the top. -/
theorem maskEcc_spec {ws : List ℕ} (hw : Holds bch ws v) (hpos : 0<bch.eccBits)
    (hle : bch.eccBits≤32*eccWords bch) :
    (maskEcc bch ws).length=ws.length ∧ Fits 32 (maskEcc bch ws) ∧
      (∀ i<32*parityWords bch-bch.eccBits, ((maskEcc bch ws).getD (parityWords bch-1) 0).testBit i=false) ∧
      packed 32 ((maskEcc bch ws).take (parityWords bch))=v*X^(32*parityWords bch-bch.eccBits) := by
  obtain ⟨low,hlow,hpk⟩ := hw.poly
  have hl := hw.length
  have hW : parityWords bch=(bch.eccBits+31)/32 := rfl
  have hmod : bch.eccBits&&&31=bch.eccBits%32 := Nat.and_two_pow_sub_one_eq_mod bch.eccBits 5
  -- the bits after masking
  have hbits : (maskEcc bch ws).length=ws.length ∧ ∀ j b, j<parityWords bch → b<32 →
      ((maskEcc bch ws).getD j 0).testBit b=((ws.getD j 0).testBit b &&
        decide (32*parityWords bch-bch.eccBits≤32*(parityWords bch-1-j)+b)) := by
    unfold maskEcc
    dsimp only
    rw [hmod]
    by_cases hz : bch.eccBits%32=0
    · rw [if_neg (not_not.mpr hz)]
      refine ⟨rfl,fun j b hj hb => ?_⟩
      have : 32*parityWords bch-bch.eccBits≤32*(parityWords bch-1-j)+b := by omega
      simp [this]
    · rw [if_pos hz]
      refine ⟨List.length_set,fun j b hj hb => ?_⟩
      by_cases hlast : bch.eccBits/32=j
      · subst hlast
        rw [getD_set_self _ _ (by omega),testBit_mask _ (hw.fits.getD _)]
        congr 1
        apply decide_eq_decide.mpr
        omega
      · rw [getD_set_ne _ _ _ hlast]
        have : 32*parityWords bch-bch.eccBits≤32*(parityWords bch-1-j)+b := by omega
        simp [this]
  obtain ⟨hlen,hb⟩ := hbits
  have hfits : Fits 32 (maskEcc bch ws) := by
    unfold maskEcc
    dsimp only
    split
    · intro w hwm
      rcases List.mem_or_eq_of_mem_set hwm with hmem | rfl
      · exact hw.fits w hmem
      · exact lt_of_le_of_lt Nat.and_le_left (hw.fits.getD _)
    · exact hw.fits
  refine ⟨hlen,hfits,?_,?_⟩
  · intro i hi
    rw [hb _ i (by omega) (by omega),show decide (32*parityWords bch-bch.eccBits≤
      32*(parityWords bch-1-(parityWords bch-1))+i)=false from decide_eq_false (by omega),Bool.and_false]
  · have htl : ((maskEcc bch ws).take (parityWords bch)).length=parityWords bch := by
      rw [List.length_take]
      omega
    apply packed_eq
    · exact fun w hwm => hfits w (List.mem_of_mem_take hwm)
    · rw [htl]
      rcases eq_or_ne v 0 with rfl | hv
      · exact WithBot.bot_lt_coe _
      · have hdv := hw.degree
        rw [degree_eq_natDegree hv] at hdv
        have hdn : v.natDegree<bch.eccBits := by exact_mod_cast hdv
        rw [degree_mul,degree_X_pow,degree_eq_natDegree hv]
        have : v.natDegree+(32*parityWords bch-bch.eccBits)<32*parityWords bch := by omega
        exact_mod_cast this
    · intro j b hj hb'
      rw [htl] at hj ⊢
      rw [getD_take _ _ hj,hb j b hj hb',coeff_mul_X_pow']
      by_cases hge : 32*parityWords bch-bch.eccBits≤32*(parityWords bch-1-j)+b
      · -- the same place among all words
        have hc := coeff_packed hw.fits (j := j) (b := b) (by omega) hb'
        rw [hpk,coeff_add,coeff_mul_X_pow',if_pos (by omega),coeff_eq_zero_of_degree_lt (lt_of_lt_of_le hlow (by
          exact_mod_cast (by omega : 32*eccWords bch-bch.eccBits≤32*(ws.length-1-j)+b))),add_zero] at hc
        have hidx : 32*(parityWords bch-1-j)+b-(32*parityWords bch-bch.eccBits)=
            32*(ws.length-1-j)+b-(32*eccWords bch-bch.eccBits) := by omega
        rw [hidx,hc]
        simp [hge]
      · simp [hge]

/-- The syndromes of a parity polynomial. -/
structure SyndromesOf (α : F) (bch : BchControl) (v : (ZMod 2)[X]) [Algebra (ZMod 2) F] (syn : List ℕ) : Prop where
  /-- There are `2t` of them. -/
  length : syn.length=2*bch.t
  /-- They are field elements. -/
  small : Small bch.m syn
  /-- They are the values at the powers of the primitive element. -/
  value : ∀ j<2*bch.t, bitSum α (syn.getD j 0)=aeval (α^(j+1)) v

variable [Algebra (ZMod 2) F]

omit [CharP F 2] in
theorem SyndromesOf.syndromes {syn : List ℕ} (hs : SyndromesOf α bch v syn) :
    Syndromes α bch syn where
  length := hs.length
  small := hs.small
  square := by
    intro j hj
    rw [hs.value _ (by omega),hs.value j (by omega),show 2*j+1+1=(j+1)*2^1 by ring,pow_mul,
      BchRoots.aeval_pow_two_pow,pow_one]

/-- The syndromes are determined by the polynomial. -/
theorem SyndromesOf.unique (h : FieldTables α bch) {syn syn' : List ℕ}
    (hs : SyndromesOf α bch v syn) (hs' : SyndromesOf α bch v syn') : syn=syn' := by
  apply ext_getD 0 (hs.length.trans hs'.length.symm)
  intro j hj
  rw [hs.length] at hj
  exact h.prim.inj (hs.small j) (hs'.small j) (by rw [hs.value j hj,hs'.value j hj])

/-- `compute_syndromes` computes the values of the parity polynomial. -/
theorem computeSyndromes_spec (h : FieldTables α bch) {ws : List ℕ} (hw : Holds bch ws v)
    (hpos : 0<bch.eccBits) (hle : bch.eccBits≤32*eccWords bch) :
    SyndromesOf α bch v (computeSyndromes bch (maskEcc bch ws)) := by
  obtain ⟨hl,hf,hlow,hpk⟩ := maskEcc_spec hw hpos hle
  have hW : parityWords bch=(bch.eccBits+31)/32 := rfl
  have hwl := hw.length
  obtain ⟨hb,hv⟩ := synWords_spec h (d := 32*parityWords bch-bch.eccBits) (by omega) (parityWords bch)
    (maskEcc bch ws) bch.eccBits (by omega) (by omega) (by omega) hf
    ⟨List.length_replicate,small_replicate _ _⟩ hlow
  have heven : ∀ j<bch.t, bitSum α ((synWords bch (maskEcc bch ws) bch.eccBits
      (List.replicate (2*bch.t) 0)).getD (2*j) 0)=aeval (α^(2*j+1)) v := by
    intro j hj
    have hz : (List.replicate (2*bch.t) 0).getD (2*j) 0=0 :=
      forall_getD (P := (·=0)) rfl (fun x hx => (List.mem_replicate.mp hx).2) _
    have he := hv j hj
    rw [hz,bitSum_zero,mul_zero,zero_add,hpk,map_mul,map_pow,aeval_X,mul_comm (aeval (α^(2*j+1)) v)] at he
    exact mul_left_cancel₀ (pow_ne_zero _ (pow_ne_zero _ h.ne_zero)) he
  obtain ⟨⟨h1,h2⟩,h3⟩ := synSquares_spec h (f := fun j => aeval (α^(j+1)) v) (by
    intro j
    rw [show 2*j+1+1=(j+1)*2^1 by ring,pow_mul,BchRoots.aeval_pow_two_pow]
    rfl) hb heven
  exact ⟨h1,h2,h3⟩

end Parity

end ArdroneKernel.BchSyndrome
