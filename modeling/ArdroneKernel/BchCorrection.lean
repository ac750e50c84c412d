import ArdroneKernel.BchScratch
import ArdroneKernel.BchSyndrome

/-!
# What the decoder corrects

A received word is a polynomial whose coefficients are the data bits and
the parity bits, the first data bit on top. Locations count the bits of
the buffers, those of an octet from the low end. The decoder finds exactly
the flipped bits of a codeword when there are at most `t` of them. For any
other word it reports a failure or a correction to a codeword, provided
that the locator polynomial of the word is split cleanly.
-/

namespace ArdroneKernel.BchCorrection

open Polynomial BitPolynomial PackedPolynomial KeyEquation BchInit BchDecode BchField BchTables
  BchPolynomial BchEncodeCorrect BchLocator BchDivision BchFactor BchSyndrome BchScratch

section Positions

/-- The place of a location in the order of transmission: octets in
order, in every octet the high bit first. Also the location of a place. -/
def streamIndex (p : ℕ) : ℕ := 8*(p/8)+(7-p%8)

theorem streamIndex_self (p : ℕ) : streamIndex (streamIndex p)=p := by
  unfold streamIndex
  omega

/-- Invert the bit at one location. -/
def flipBit (buf : List UInt8) (p : ℕ) : List UInt8 :=
  buf.set (p/8) (buf.getD (p/8) 0^^^UInt8.ofNat (1<<<(p%8)))

/-- Invert the bits at the given locations. -/
def flipBits (buf : List UInt8) (ps : List ℕ) : List UInt8 := ps.foldl flipBit buf

theorem length_flipBits (buf : List UInt8) (ps : List ℕ) : (flipBits buf ps).length=buf.length := by
  induction ps generalizing buf with
  | nil => rfl
  | cons p ps ih => exact (ih (flipBit buf p)).trans List.length_set

/-- An inverted bit is an added power. -/
theorem bytesPoly_flipBit {buf : List UInt8} {p : ℕ} (hp : p/8<buf.length) :
    bytesPoly (flipBit buf p)=bytesPoly buf+X^(8*(buf.length-1-p/8)+p%8) := by
  have hset : (flipBit buf p).map UInt8.toNat=
      (buf.map UInt8.toNat).set (p/8) ((buf.map UInt8.toNat).getD (p/8) 0^^^2^(p%8)) := by
    have hbit : ∀ r<8, (UInt8.ofNat (1<<<r)).toNat=2^r := by decide
    have hget : (buf.map UInt8.toNat).getD (p/8) 0=(buf.getD (p/8) 0).toNat := by
      rw [List.getD_eq_getElem _ _ (by simpa using hp),List.getD_eq_getElem _ _ hp,List.getElem_map]
    rw [flipBit,List.map_set,UInt8.toNat_xor,hbit _ (Nat.mod_lt _ (by omega)),hget]
  have hadd := @packed_set_xor 8 (buf.map UInt8.toNat) _ (2^(p%8)) (by simpa using hp)
  rw [bytesPoly,hset,hadd,List.length_map,bitPoly,bitSum_two_pow,←pow_add,Nat.add_comm (p%8)]
  rfl

/-- The power that an inverted bit adds. -/
noncomputable def flipPower (len p : ℕ) : (ZMod 2)[X] := X^(8*(len-1-p/8)+p%8)

theorem bytesPoly_flipBits {buf : List UInt8} {ps : List ℕ} (hps : ∀ p ∈ ps, p/8<buf.length) :
    bytesPoly (flipBits buf ps)=bytesPoly buf+(ps.map (flipPower buf.length)).sum := by
  induction ps generalizing buf with
  | nil => simp [flipBits]
  | cons p ps ih =>
    have hl : (flipBit buf p).length=buf.length := List.length_set
    have hrec := @ih (flipBit buf p) (by
      rw [hl]
      exact fun q hq => hps q (List.mem_cons_of_mem _ hq))
    rw [hl] at hrec
    rw [flipBits,List.foldl_cons]
    rw [flipBits] at hrec
    rw [hrec,bytesPoly_flipBit (hps p List.mem_cons_self),List.map_cons,List.sum_cons,add_assoc]
    rfl

/-- Inverting the same bits again, in any order, restores the buffer. -/
theorem flipBits_perm {buf : List UInt8} {ps qs : List ℕ} (h : qs.Perm ps) (hps : ∀ p ∈ ps, p/8<buf.length) :
    flipBits (flipBits buf ps) qs=buf := by
  apply bytesPoly_injective
  · rw [length_flipBits,length_flipBits]
  · have hqs : ∀ q ∈ qs, q/8<(flipBits buf ps).length := by
      rw [length_flipBits]
      exact fun q hq => hps q (h.mem_iff.mp hq)
    rw [bytesPoly_flipBits hqs,bytesPoly_flipBits hps,length_flipBits,(h.map _).sum_eq,add_assoc,
      CharTwo.add_self_eq_zero,add_zero]

/-- The location that the decoder reports for a power. -/
theorem bitPosition_eq {nbits loc : ℕ} (hn : nbits≤2^32) : bitPosition nbits loc=streamIndex (nbits-1-loc) := by
  have hmask : ∀ p<2^32, p&&&(0xffffffff^^^7)=8*(p/8) := by
    intro p hp
    apply Nat.eq_of_testBit_eq
    intro i
    have h7 : (7 : ℕ)=2^3-1 := by norm_num
    have hf : (0xffffffff : ℕ)=2^32-1 := by norm_num
    have hdiv : 8*(p/8)=(p>>>3)<<<3 := by
      rw [Nat.shiftLeft_eq,Nat.shiftRight_eq_div_pow]
      ring
    rw [hdiv,Nat.testBit_and,Nat.testBit_xor,h7,hf,Nat.testBit_two_pow_sub_one,Nat.testBit_two_pow_sub_one,
      Nat.testBit_shiftLeft,Nat.testBit_shiftRight]
    rcases Nat.lt_or_ge i 32 with hi | hi
    · by_cases h3 : i<3
      · simp [hi,h3]
      · simp [hi,h3,Nat.not_lt.mp h3]
    · rw [Nat.testBit_lt_two_pow (lt_of_lt_of_le hp (Nat.pow_le_pow_right (by omega) hi)),
        show 3+(i-3)=i by omega,Nat.testBit_lt_two_pow (lt_of_lt_of_le hp (Nat.pow_le_pow_right (by omega) hi))]
      simp
  have h7 : ∀ p, p&&&7=p%8 := fun p => Nat.and_two_pow_sub_one_eq_mod p 3
  unfold bitPosition
  dsimp only
  rw [hmask _ (by omega),h7]
  have hor := Nat.two_pow_add_eq_or_of_lt (i := 3) (b := 7-(nbits-1-loc)%8) (by omega) ((nbits-1-loc)/8)
  rw [←hor]
  rfl

end Positions

section Received

variable {bch : BchControl}

/-- The number of bits that an encoded buffer of `len` octets has. -/
def codeBits (bch : BchControl) (len : ℕ) : ℕ := len*8+bch.eccBits

/-- The location of a data bit or of a parity bit. -/
def IsLocation (bch : BchControl) (len p : ℕ) : Prop := streamIndex p<codeBits bch len

instance (bch : BchControl) (len p : ℕ) : Decidable (IsLocation bch len p) := inferInstanceAs (Decidable (_<_))

/-- The received word as a polynomial: the data and the parity bits of the
buffers, without the padding bits after them. -/
noncomputable def receivedPoly (bch : BchControl) (buf : List UInt8) : (ZMod 2)[X] :=
  bytesPoly buf /ₘ X^(8*bch.eccBytes-bch.eccBits)

/-- The sum of powers for some places. -/
noncomputable def errorPoly (ls : List ℕ) : (ZMod 2)[X] := (ls.map fun l => (X : (ZMod 2)[X])^l).sum

/-- Inverting bits adds the powers of their places, counted from the end. -/
theorem receivedPoly_flipBits (hle : bch.eccBits≤8*bch.eccBytes) {len : ℕ} {buf : List UInt8}
    (hl : buf.length=len+bch.eccBytes) {ps : List ℕ} (hps : ∀ p ∈ ps, IsLocation bch len p) :
    receivedPoly bch (flipBits buf ps)=
      receivedPoly bch buf+errorPoly (ps.map fun p => codeBits bch len-1-streamIndex p) := by
  induction ps generalizing buf with
  | nil => simp [flipBits,errorPoly]
  | cons p ps ih =>
    have hp : 8*(p/8)+(7-p%8)<len*8+bch.eccBits := hps p List.mem_cons_self
    have hstep : receivedPoly bch (flipBit buf p)=receivedPoly bch buf+X^(codeBits bch len-1-streamIndex p) := by
      have hexp : 8*(buf.length-1-p/8)+p%8=codeBits bch len-1-streamIndex p+(8*bch.eccBytes-bch.eccBits) := by
        unfold codeBits streamIndex
        omega
      have hx := mul_X_pow_div 1 (Nat.le_add_left (8*bch.eccBytes-bch.eccBits) (codeBits bch len-1-streamIndex p))
      rw [one_mul,one_mul,Nat.add_sub_cancel] at hx
      rw [receivedPoly,bytesPoly_flipBit (by omega),hexp,add_div_X_pow,hx]
      rfl
    have hrec := @ih (flipBit buf p) (by rw [flipBit,List.length_set,hl])
      fun q hq => hps q (List.mem_cons_of_mem _ hq)
    rw [flipBits,List.foldl_cons]
    rw [flipBits] at hrec
    rw [hrec,hstep,errorPoly,errorPoly,List.map_cons,List.map_cons,List.sum_cons,add_assoc]

end Received

section Locations

variable {F : Type*} [Field F] [CharP F 2] [Finite F] [Algebra (ZMod 2) F] {α : F}
  {bch : BchControl}

omit [Finite F] [CharP F 2] in
theorem aeval_errorPoly (x : F) (ls : List ℕ) : aeval x (errorPoly ls)=(ls.map fun l => x^l).sum := by
  rw [errorPoly,map_list_sum,List.map_map]
  congr 1
  apply List.map_congr_left
  intro l _
  simp

/-- The renumbering succeeds when all places are inside the word. -/
theorem renumber_spec (nbits : ℕ) (ls : List ℕ) :
    ((renumber nbits ls).1=true ↔ ∀ l ∈ ls, l<nbits) ∧
      ((renumber nbits ls).1=true → (renumber nbits ls).2=ls.map (bitPosition nbits)) := by
  induction ls with
  | nil => exact ⟨by simp [renumber],fun _ => rfl⟩
  | cons l ls ih =>
    rw [renumber]
    split
    · next hle =>
      refine ⟨⟨fun hc => absurd hc (by simp),fun hc => ?_⟩,fun hc => absurd hc (by simp)⟩
      exact absurd (hc l List.mem_cons_self) (by omega)
    · next hlt =>
      refine ⟨?_,fun hc => by rw [ih.2 hc,List.map_cons]⟩
      rw [ih.1,List.forall_mem_cons]
      exact ⟨fun hc => ⟨by omega,hc⟩,fun hc => hc.2⟩

/-- The elements that belong to some places. -/
def places [DecidableEq F] (α : F) (ls : List ℕ) : Finset F := ls.toFinset.image fun l => α^l

omit [CharP F 2] [Finite F] [Algebra (ZMod 2) F] in
theorem places_facts [DecidableEq F] (h : FieldTables α bch) {ls : List ℕ} (hnd : ls.Nodup)
    (hn : ∀ l ∈ ls, l<bch.n) :
    Set.InjOn (fun l => α^l) (ls.toFinset : Set ℕ) ∧ (places α ls).card=ls.length ∧ 0 ∉ places α ls ∧
      linProd α ls=locator (places α ls) ∧ ∀ n, (ls.map fun l => (α^n)^l).sum=∑ x ∈ places α ls, x^n := by
  have hinj : Set.InjOn (fun l => α^l) (ls.toFinset : Set ℕ) := by
    intro i hi j hj hij
    have hi' := hn i (List.mem_toFinset.mp hi)
    have hj' := hn j (List.mem_toFinset.mp hj)
    rw [h.n_eq] at hi' hj'
    exact h.prim.pow_inj hi' hj' hij
  refine ⟨hinj,?_,?_,?_,?_⟩
  · rw [places,Finset.card_image_of_injOn hinj,List.toFinset_card_of_nodup hnd]
  · intro h0
    obtain ⟨l,-,hl⟩ := Finset.mem_image.mp h0
    exact pow_ne_zero l h.ne_zero hl
  · rw [linProd,locator,places,Finset.prod_image hinj,List.prod_toFinset _ hnd]
  · intro n
    rw [places,Finset.sum_image hinj,List.sum_toFinset _ hnd]
    congr 1
    apply List.map_congr_left
    intro l _
    rw [←pow_mul,←pow_mul,Nat.mul_comm]

omit [Finite F] in
/-- The syndromes of a word are those of its errors. -/
theorem powerSums_places [DecidableEq F] (h : FieldTables α bch) {V : (ZMod 2)[X]} {syn ls : List ℕ}
    (hs : SyndromesOf α bch V syn) (hnd : ls.Nodup) (hn : ∀ l ∈ ls, l<bch.n) :
    PowerSums (syndromePoly α syn) (2*bch.t+1) (places α ls) ↔
      ∀ j, 1≤j → j≤2*bch.t → aeval (α^j) (V+errorPoly ls)=0 := by
  obtain ⟨-,-,-,-,hsum⟩ := places_facts h hnd hn
  have hterm : ∀ j, 1≤j → j≤2*bch.t → ((syndromePoly α syn).coeff j=∑ x ∈ places α ls, x^j ↔
      aeval (α^j) (V+errorPoly ls)=0) := by
    intro j h1 hj
    obtain ⟨i,rfl⟩ := Nat.exists_eq_succ_of_ne_zero (Nat.ne_of_gt h1)
    rw [coeff_syndromePoly_succ,hs.value i (by omega),←hsum,map_add,aeval_errorPoly,CharTwo.add_eq_zero]
  constructor
  · rintro ⟨-,hp⟩ j h1 hj
    exact (hterm j h1 hj).mp (hp j (by omega) (by omega))
  · intro hz
    exact ⟨coeff_syndromePoly_zero α syn,fun j h1 hj => (hterm j h1 (by omega)).mpr (hz j h1 (by omega))⟩

omit [Finite F] [Algebra (ZMod 2) F] in
/-- The locator polynomial found, without what lies above its degree. -/
theorem represents_locator (h : FieldTables α bch) {syn : List ℕ} (hs : Syndromes α bch syn) (ht : 0<bch.t) :
    let elp := (computeErrorLocatorPolynomial bch syn).2
    (elp.deg≤2*bch.t → Represents α bch.m ⟨elp.deg,elp.c.take (elp.deg+1)⟩ (listPoly α elp.c) ∧
      (elp.c.take (elp.deg+1)).length=elp.deg+1) ∧ listPoly α elp.c≠0 := by
  intro elp
  obtain ⟨hl,hsm,hd,-⟩ := computeErrorLocatorPolynomial_spec h hs ht
  have hne : listPoly α elp.c≠0 := by
    intro hz
    have hd' : (listPoly α elp.c).degree=elp.deg := hd
    rw [hz,degree_zero] at hd'
    cases hd'
  refine ⟨fun hle => ?_,hne⟩
  have hlen : (elp.c.take (elp.deg+1)).length=elp.deg+1 := by
    have hl' : elp.c.length=2*bch.t+1 := hl
    rw [List.length_take]
    omega
  have hnd : (listPoly α elp.c).natDegree=elp.deg := natDegree_eq_of_degree_eq_some hd
  refine ⟨⟨?_,Small.take hsm _,?_,hnd⟩,hlen⟩
  · change elp.deg<(elp.c.take (elp.deg+1)).length
    omega
  · change listPoly α ((elp.c.take (elp.deg+1)).take (elp.deg+1))=listPoly α elp.c
    rw [List.take_take,min_self]
    ext i
    rw [coeff_take]
    split
    · rw [coeff_listPoly]
    · exact (coeff_eq_zero_of_natDegree_lt (by omega)).symm

omit [CharP F 2] [Finite F] [Algebra (ZMod 2) F] in
/-- A separable product of linear factors has different places. -/
theorem nodup_of_separable (h : FieldTables α bch) {L : List ℕ} (hs : (linProd α L).Separable) : L.Nodup := by
  rw [List.nodup_iff_sublist]
  intro l hsub
  have hdvd := (hsub.map fun l => (1+C (α^l)*X : F[X])).prod_dvd_prod
  rw [List.map_cons,List.map_cons,List.map_nil,List.prod_cons,List.prod_singleton] at hdvd
  have hu := hs.squarefree _ hdvd
  have hd : (1+C (α^l)*X : F[X]).degree=(1 : ℕ) := factor_degree (pow_ne_zero l h.ne_zero)
  have hnd := natDegree_eq_of_degree_eq_some hd
  rw [natDegree_eq_zero_of_isUnit hu] at hnd
  omega

/-- The second half of the decoder is sound on words whose locator
polynomial is split cleanly. -/
theorem correct_sound (h : FieldTables α bch) (hb : Deg2Base α bch) (ht : 0<bch.t) {V : (ZMod 2)[X]}
    {syn : List ℕ} (hs : SyndromesOf α bch V syn)
    (hclean : ∀ D, ShortestLocator (syndromePoly α syn) bch.t D → CleanSplit α bch.m (bch.m+1) 1 D) (len : ℕ) :
    (correct bch len syn).1=-EBADMSG ∨ ∃ L : List ℕ, L.Nodup ∧ (∀ l ∈ L, l<codeBits bch len) ∧ L.length≤bch.t ∧
      correct bch len syn=((L.length : ℤ),L.map (bitPosition (codeBits bch len))) ∧
      ∀ j, 1≤j → j≤2*bch.t → aeval (α^j) (V+errorPoly L)=0 := by
  classical
  have hsyn := hs.syndromes
  obtain ⟨-,-,hd,hcase⟩ := computeErrorLocatorPolynomial_spec h hsyn ht
  obtain ⟨hrep,hne⟩ := represents_locator h hsyn ht
  unfold correct
  generalize computeErrorLocatorPolynomial bch syn=r at hd hcase hrep hne ⊢
  obtain ⟨err,elp⟩ := r
  dsimp only at hd hcase hrep hne ⊢
  rcases hcase with ⟨rfl,-,-⟩ | ⟨rfl,hle,hsep,hshort⟩
  · exact Or.inl rfl
  · obtain ⟨hr,hrl⟩ := hrep (by omega)
    obtain ⟨-,hfull⟩ := polyRoots_sound h hb (bch.m+1) 1 hr hrl hne (hclean _ hshort)
    rw [natDegree_eq_of_degree_eq_some hd] at hfull
    -- a full list of roots explains the syndromes
    have hexplain : ∀ L, (∀ l ∈ L, l<bch.n) → (∃ a, listPoly α elp.c=C a*linProd α L) →
        L.Nodup ∧ ∀ j, 1≤j → j≤2*bch.t → aeval (α^j) (V+errorPoly L)=0 := by
      rintro L hn ⟨a,ha⟩
      have hone : a=1 := by
        have hc := hshort.const
        have hc1 : (linProd α L).coeff 0=1 := by
          rw [coeff_zero_eq_eval_zero,linProd,eval_list_prod,List.map_map]
          apply List.prod_eq_one
          intro x hx
          obtain ⟨l,-,rfl⟩ := List.mem_map.mp hx
          simp
        rw [ha,coeff_C_mul,hc1,mul_one] at hc
        exact hc
      rw [hone,map_one,one_mul] at ha
      have hnd := nodup_of_separable h (ha ▸ hsep)
      obtain ⟨-,-,-,hloc,-⟩ := places_facts h hnd hn
      refine ⟨hnd,(powerSums_places h hs hnd hn).mp (powerSums_of_resid (coeff_syndromePoly_zero α syn) ?_)⟩
      rw [←hloc,←ha]
      exact hshort.newton
    by_cases hpos : (0 : ℤ)<elp.deg
    · rw [if_pos hpos]
      generalize polyRoots bch (bch.m+1) 1 ⟨elp.deg,elp.c.take (elp.deg+1)⟩=L at hfull ⊢
      by_cases hcount : (elp.deg : ℤ)≠L.length
      · rw [if_pos hcount]
        exact Or.inl rfl
      · rw [if_neg hcount]
        have hlen : L.length=elp.deg := by omega
        obtain ⟨hn,hfactor⟩ := hfull hlen
        obtain ⟨hnd,hz⟩ := hexplain L hn hfactor
        obtain ⟨hall,hmap⟩ := renumber_spec (len*8+bch.eccBits) L
        by_cases hin : (renumber (len*8+bch.eccBits) L).1=true
        · rw [if_pos hin]
          refine Or.inr ⟨L,hnd,hall.mp hin,by omega,?_,hz⟩
          rw [hmap hin,hlen]
          rfl
        · rw [if_neg hin]
          exact Or.inl rfl
    · have h0 : elp.deg=0 := by omega
      rw [if_neg hpos,h0]
      obtain ⟨c,hc⟩ := natDegree_eq_zero.mp ((natDegree_eq_of_degree_eq_some hd).trans h0)
      obtain ⟨hnd,hz⟩ := hexplain [] (by simp) ⟨c,by rw [←hc]; exact (mul_one _).symm⟩
      exact Or.inr ⟨[],hnd,by simp,Nat.zero_le _,rfl,hz⟩

/-- The second half of the decoder finds all errors when there are at most
`t` of them. -/
theorem correct_complete (h : FieldTables α bch) (hb : Deg2Base α bch) (ht : 0<bch.t) {V : (ZMod 2)[X]}
    {syn : List ℕ} (hs : SyndromesOf α bch V syn) {len : ℕ} (hlen : codeBits bch len≤bch.n) {ls : List ℕ}
    (hnd : ls.Nodup) (hls : ∀ l ∈ ls, l<codeBits bch len) (hcard : ls.length≤bch.t)
    (hz : ∀ j, 1≤j → j≤2*bch.t → aeval (α^j) (V+errorPoly ls)=0) :
    ∃ L : List ℕ, L.Perm ls ∧ correct bch len syn=((ls.length : ℤ),L.map (bitPosition (codeBits bch len))) := by
  classical
  have hsyn := hs.syndromes
  have hn : ∀ l ∈ ls, l<bch.n := fun l hl => lt_of_lt_of_le (hls l hl) hlen
  obtain ⟨hinj,hc,h0,-,-⟩ := places_facts h hnd hn
  have hps := (powerSums_places h hs hnd hn).mpr hz
  obtain ⟨herr,hdeg,hloc⟩ := computeErrorLocatorPolynomial_errors h hsyn ht hps h0 (by rw [hc]; exact hcard)
  obtain ⟨hrep,hne⟩ := represents_locator h hsyn ht
  unfold correct
  generalize computeErrorLocatorPolynomial bch syn=r at herr hdeg hloc hrep hne ⊢
  obtain ⟨err,elp⟩ := r
  dsimp only at herr hdeg hloc hrep hne ⊢
  rw [hc] at herr hdeg
  obtain ⟨hr,hrl⟩ := hrep (by omega)
  by_cases hpos : 0<err
  · rw [if_pos hpos]
    -- the inverses of the places are the roots
    have hsplits : Splits (listPoly α elp.c) ((places α ls).image (·⁻¹)) := by
      refine ⟨?_,?_,?_⟩
      · rw [Finset.card_image_of_injective _ inv_injective,hr.degree,hdeg,hc]
      · intro hm
        obtain ⟨x,hx,hx0⟩ := Finset.mem_image.mp hm
        rw [inv_eq_zero] at hx0
        exact h0 (hx0 ▸ hx)
      · intro y hy
        obtain ⟨x,hx,rfl⟩ := Finset.mem_image.mp hy
        have hx0 : x≠0 := ne_of_mem_of_not_mem hx h0
        rw [hloc,locator,eval_prod]
        apply Finset.prod_eq_zero hx
        simp [mul_inv_cancel₀ hx0,CharTwo.add_self_eq_zero]
    have hsame : SameTraces α bch.m 1 ((places α ls).image (·⁻¹)) := by
      intro x _ y _ i hi1 hi2
      omega
    have hcount := polyRoots_complete h hb (bch.m+1) 1 hr hrl hne hsplits hsame (by omega) (by omega)
    obtain ⟨-,hfull⟩ := polyRoots_sound h hb (bch.m+1) 1 hr hrl hne
      (cleanSplit_of_splits h.prim _ _ hne hsplits hsame)
    obtain ⟨hLn,a,ha⟩ := hfull hcount
    rw [hr.degree] at hcount
    change (polyRoots bch (bch.m+1) 1 ⟨elp.deg,elp.c.take (elp.deg+1)⟩).length=elp.deg at hcount
    generalize polyRoots bch (bch.m+1) 1 ⟨elp.deg,elp.c.take (elp.deg+1)⟩=L at hcount hLn ha ⊢
    have ha0 : a≠0 := by
      rintro rfl
      rw [map_zero,zero_mul] at ha
      exact hne ha
    -- every place is among the roots found
    have hsub : ls ⊆ L := by
      intro l hl
      have hroot := hsplits.root (α^l)⁻¹ (Finset.mem_image_of_mem _
        (Finset.mem_image_of_mem _ (List.mem_toFinset.mpr hl)))
      rw [ha,eval_mul,eval_C,mul_eq_zero,or_iff_right ha0,linProd,eval_list_prod] at hroot
      obtain ⟨p,hp,hpz⟩ := List.mem_map.mp (List.prod_eq_zero_iff.mp hroot)
      obtain ⟨l',hl',rfl⟩ := List.mem_map.mp hp
      rw [eval_add,eval_one,eval_mul,eval_C,eval_X,CharTwo.add_eq_zero,eq_comm,
        mul_inv_eq_one₀ (pow_ne_zero l h.ne_zero)] at hpz
      have hl1 := hn l hl
      have hl2 := hLn l' hl'
      rw [h.n_eq] at hl1 hl2
      rwa [←h.prim.pow_inj hl2 hl1 hpz]
    have hperm : L.Perm ls :=
      ((List.subperm_of_subset hnd hsub).perm_of_length_le (by omega)).symm
    rw [if_neg (by omega)]
    obtain ⟨hall,hmap⟩ := renumber_spec (len*8+bch.eccBits) L
    have hin := hall.mpr fun l hl => hls l (hperm.mem_iff.mp hl)
    exact ⟨L,hperm,by rw [if_pos hin,hmap hin,herr]; rfl⟩
  · rw [if_neg hpos]
    have hnil : ls=[] := List.length_eq_zero_iff.mp (by omega)
    exact ⟨[],by rw [hnil],by rw [hnil,if_pos (by omega),herr,hnil]; rfl⟩

end Locations

end ArdroneKernel.BchCorrection
