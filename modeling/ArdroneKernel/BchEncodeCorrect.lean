import ArdroneKernel.BchGenerator

/-!
# The encoder computes the polynomial remainder

The parity words are read as a polynomial, and one step of each of the
three code paths multiplies it by a power of the indeterminate, adds the
new data above the words and reduces by the generator. The steps compose,
so the result depends on the data alone and not on how it was cut into
octets and words.
-/

namespace ArdroneKernel.BchEncodeCorrect

open Polynomial BitPolynomial PackedPolynomial ArrayList BchInit BchEncode BchAcceptance BchGenerator

/-- The polynomial of a byte buffer, most significant bit first. -/
noncomputable def bytesPoly (data : List UInt8) : (ZMod 2)[X] := packed 8 (data.map UInt8.toNat)

theorem fits_bytes (data : List UInt8) : Fits 8 (data.map UInt8.toNat) := by
  intro w hw
  obtain ⟨b,-,rfl⟩ := List.mem_map.mp hw
  exact b.toNat_lt

@[simp]
theorem bytesPoly_nil : bytesPoly []=0 := rfl

theorem bytesPoly_cons (b : UInt8) (data : List UInt8) :
    bytesPoly (b::data)=bitPoly b.toNat*X^(8*data.length)+bytesPoly data := by
  rw [bytesPoly,List.map_cons,packed_cons,List.length_map]
  rfl

theorem bytesPoly_append (a b : List UInt8) :
    bytesPoly (a++b)=bytesPoly a*X^(8*b.length)+bytesPoly b := by
  rw [bytesPoly,List.map_append,packed_append,List.length_map]
  rfl

/-- A byte buffer is determined by its length and its polynomial. -/
theorem bytesPoly_injective {a b : List UInt8} (hl : a.length=b.length)
    (h : bytesPoly a=bytesPoly b) : a=b := by
  have hm := packed_injective (fits_bytes a) (fits_bytes b) (by simpa using hl) h
  exact List.map_injective_iff.mpr (fun _ _ he => UInt8.toNat_inj.mp he) hm

section Bits

/-- A word moved up one octet splits into what leaves it and what stays. -/
theorem bitPoly_shift_octet (e : ℕ) :
    bitPoly ((e<<<8)%2^32)=bitPoly e*X^8+bitPoly (e>>>24)*X^32 := by
  have hs := bitSum_split (X : (ZMod 2)[X]) (e<<<8) 32
  have hr : (e<<<8)>>>32=e>>>24 := by
    omega
  rw [bitSum_shiftLeft,hr] at hs
  have h2 : bitPoly (e>>>24)*X^32+bitPoly (e>>>24)*X^32=0 := CharTwo.add_self_eq_zero _
  linear_combination -hs-h2

theorem shift_octet_mod (e : ℕ) : ((e<<<8)%2^32)%2^8=0 := by
  omega

/-- Four octets make a word. -/
theorem bitPoly_be32 {a b c d : ℕ} (ha : a<2^8) (hb : b<2^8) (hc : c<2^8) (hd : d<2^8) :
    be32 a b c d<2^32 ∧ bitPoly (be32 a b c d)=packed 8 [a,b,c,d] := by
  have h1 : bitPoly ((a<<<24)|||(b<<<16))=bitPoly (a<<<24)+bitPoly (b<<<16) :=
    bitPoly_or (s := 24) (by rw [Nat.shiftLeft_eq]; omega) (by rw [Nat.shiftLeft_eq]; omega)
  have m1 : ((a<<<24)|||(b<<<16))%2^16=0 := by
    rw [or_eq_xor (s := 24) (by rw [Nat.shiftLeft_eq]; omega) (by rw [Nat.shiftLeft_eq]; omega),
      Nat.xor_mod_two_pow,Nat.shiftLeft_eq,Nat.shiftLeft_eq]
    have ha0 : a*2^24%2^16=0 := by omega
    have hb0 : b*2^16%2^16=0 := Nat.mul_mod_left b (2^16)
    rw [ha0,hb0]
    rfl
  have h2 : bitPoly ((a<<<24)|||(b<<<16)|||(c<<<8))=bitPoly ((a<<<24)|||(b<<<16))+bitPoly (c<<<8) :=
    bitPoly_or m1 (by rw [Nat.shiftLeft_eq]; omega)
  have m2 : ((a<<<24)|||(b<<<16)|||(c<<<8))%2^8=0 := by
    rw [or_eq_xor m1 (by rw [Nat.shiftLeft_eq]; omega),Nat.xor_mod_two_pow,Nat.shiftLeft_eq c]
    have hc0 : c*2^8%2^8=0 := by omega
    have hab : ((a<<<24)|||(b<<<16))%2^8=0 := by
      omega
    rw [hc0,hab]
    rfl
  have h3 : bitPoly (be32 a b c d)=bitPoly ((a<<<24)|||(b<<<16)|||(c<<<8))+bitPoly d :=
    bitPoly_or m2 hd
  constructor
  · have hs : ∀ x k, x<2^8 → k≤24 → x<<<k<2^32 := by
      intro x k hx hk
      rw [Nat.shiftLeft_eq]
      calc x*2^k<2^8*2^k := Nat.mul_lt_mul_of_pos_right hx (Nat.two_pow_pos k)
        _=2^(8+k) := by rw [pow_add]
        _≤2^32 := Nat.pow_le_pow_right (by omega) (by omega)
    exact Nat.or_lt_two_pow (Nat.or_lt_two_pow (Nat.or_lt_two_pow (hs a 24 ha (by omega))
      (hs b 16 hb (by omega))) (hs c 8 hc (by omega))) (by omega)
  · rw [h3,h2,h1]
    simp only [packed_cons,packed_nil,List.length_cons,List.length_nil,bitPoly,bitSum_shiftLeft]
    ring

end Bits

section Steps

/-- The words `ws'` hold the remainder after the data was shifted in below
what `ws` held. -/
structure Encodes (bch : BchControl) (ws : List ℕ) (data : List UInt8) (ws' : List ℕ) : Prop where
  /-- One word for every parity word. -/
  length : ws'.length=eccWords bch
  /-- 32-bit words. -/
  fits : Fits 32 ws'
  /-- The remainder. -/
  poly : packed 32 ws'=
    (packed 32 ws*X^(8*data.length)+bytesPoly data*X^(32*eccWords bch)) %ₘ wordModulus bch

variable {bch : BchControl} {ws : List ℕ}

/-- The modulus reaches one bit above the words. -/
theorem degree_wordModulus (ht : EncoderTables bch) :
    (wordModulus bch).degree=((32*eccWords bch : ℕ) : WithBot ℕ) := by
  have hb := ht.bits_le
  have hy := ht.bytes_le
  rw [wordModulus,degree_mul,degree_X_pow,degree_eq_natDegree (monic_generator bch).1.ne_zero,ht.degree]
  have : bch.eccBits+(32*eccWords bch-bch.eccBits)=32*eccWords bch := by omega
  exact_mod_cast this

/-- Words that differ from the shifted data by a multiple of the modulus. -/
theorem encodes_of_dvd (ht : EncoderTables bch) {ws ws' : List ℕ} {data : List UInt8}
    (hl : ws'.length=eccWords bch) (hf : Fits 32 ws')
    (h : wordModulus bch ∣
      packed 32 ws'+(packed 32 ws*X^(8*data.length)+bytesPoly data*X^(32*eccWords bch))) :
    Encodes bch ws data ws' := by
  refine ⟨hl,hf,eq_modByMonic (monic_wordModulus bch) ?_ h⟩
  rw [degree_wordModulus ht,←hl]
  exact degree_packed_lt hf

theorem Encodes.dvd {ws ws' : List ℕ} {data : List UInt8} (h : Encodes bch ws data ws') :
    wordModulus bch ∣
      packed 32 ws'+(packed 32 ws*X^(8*data.length)+bytesPoly data*X^(32*eccWords bch)) := by
  rw [h.poly,←modByMonic_eq_zero_iff_dvd (monic_wordModulus bch),add_modByMonic,
    modByMonic_eq_self_iff (monic_wordModulus bch) |>.mpr (degree_modByMonic_lt _ (monic_wordModulus bch)),
    CharTwo.add_self_eq_zero]

/-- No data leaves the words as they are. -/
theorem encodes_nil (ht : EncoderTables bch) (hl : ws.length=eccWords bch) (hf : Fits 32 ws) :
    Encodes bch ws [] ws := by
  apply encodes_of_dvd ht hl hf
  rw [List.length_nil,Nat.mul_zero,pow_zero,mul_one,bytesPoly_nil,zero_mul,add_zero,
    CharTwo.add_self_eq_zero]
  exact dvd_zero _

/-- Encoding one buffer after another is encoding their concatenation. -/
theorem Encodes.append (ht : EncoderTables bch) {ws ws' ws'' : List ℕ} {a b : List UInt8}
    (ha : Encodes bch ws a ws') (hb : Encodes bch ws' b ws'') : Encodes bch ws (a++b) ws'' := by
  apply encodes_of_dvd ht hb.length hb.fits
  have hsum : packed 32 ws''+(packed 32 ws*X^(8*(a++b).length)+bytesPoly (a++b)*X^(32*eccWords bch))=
      (packed 32 ws''+(packed 32 ws'*X^(8*b.length)+bytesPoly b*X^(32*eccWords bch)))+
      (packed 32 ws'+(packed 32 ws*X^(8*a.length)+bytesPoly a*X^(32*eccWords bch)))*X^(8*b.length) := by
    rw [List.length_append,bytesPoly_append,Nat.mul_add,pow_add]
    have h2 : packed 32 ws'*X^(8*b.length)+packed 32 ws'*X^(8*b.length)=0 := CharTwo.add_self_eq_zero _
    linear_combination -h2
  rw [hsum]
  exact dvd_add hb.dvd (Dvd.dvd.mul_right ha.dvd _)

theorem length_shiftWords (ws p : List ℕ) : (shiftWords ws p).length=ws.length := by
  induction ws generalizing p with
  | nil => rfl
  | cons e ws ih =>
    cases ws with
    | nil => rfl
    | cons e' ws =>
      rw [shiftWords,List.length_cons,ih]
      rfl

/-- Moving the words up by one octet and adding a row. -/
theorem shiftWords_spec {ws p : List ℕ} (hws : Fits 32 ws) (hp : Fits 32 p) (hl : ws.length=p.length) :
    Fits 32 (shiftWords ws p) ∧ packed 32 (shiftWords ws p)=
      packed 32 ws*X^8+bitPoly (ws.getD 0 0>>>24)*X^(32*ws.length)+packed 32 p := by
  induction ws generalizing p with
  | nil =>
    have hp0 : p=[] := List.length_eq_zero_iff.mp hl.symm
    subst hp0
    refine ⟨fun _ h => absurd h List.not_mem_nil,?_⟩
    simp [shiftWords]
  | cons e ws ih =>
    cases p with
    | nil => simp at hl
    | cons q p =>
      obtain ⟨he,hws'⟩ := fits_cons.mp hws
      obtain ⟨hq,hp'⟩ := fits_cons.mp hp
      have hl' : ws.length=p.length := by simpa using hl
      have hx : ∀ a, bitPoly (a^^^q)=bitPoly a+bitPoly q := fun a => bitSum_xor X a q
      have hlow : (e<<<8)%2^32<2^32 := Nat.mod_lt _ (by norm_num)
      cases ws with
      | nil =>
        have hp0 : p=[] := List.length_eq_zero_iff.mp hl'.symm
        subst hp0
        refine ⟨fits_cons.mpr ⟨Nat.xor_lt_two_pow hlow hq,fun _ h => absurd h List.not_mem_nil⟩,?_⟩
        rw [shiftWords,packed_singleton,packed_singleton,packed_singleton,List.getD_cons_zero,
          List.getD_cons_zero,hx,bitPoly_shift_octet]
        rfl
      | cons e' es =>
        obtain ⟨he',-⟩ := fits_cons.mp hws'
        obtain ⟨hf,hpoly⟩ := ih hws' hp' hl'
        have hhi : e'>>>24<2^8 := by
          omega
        refine ⟨fits_cons.mpr ⟨Nat.xor_lt_two_pow (Nat.or_lt_two_pow hlow (by omega)) hq,hf⟩,?_⟩
        rw [shiftWords,packed_cons,List.tail_cons,hpoly,length_shiftWords,List.getD_cons_zero,
          List.getD_cons_zero,List.getD_cons_zero,hx,bitPoly_or (shift_octet_mod e) hhi,
          bitPoly_shift_octet,packed_cons e,packed_cons q,List.length_cons (a := e),←hl',
          Nat.mul_add 32 _ 1,pow_add]
        have h2 : bitPoly (e'>>>24)*X^(32*(e'::es).length)+bitPoly (e'>>>24)*X^(32*(e'::es).length)=0 :=
          CharTwo.add_self_eq_zero _
        linear_combination h2

/-- The rows of the first table, congruent to the byte above the words. -/
theorem row_dvd (ht : EncoderTables bch) {b i : ℕ} (hb : b<4) (hi : i<256) :
    wordModulus bch ∣
      packed 32 (mod8TabRow bch (256*b+i))+bitPoly i*X^(8*b)*X^(32*eccWords bch) := by
  rw [ht.rowPoly b i hb hi,←modByMonic_eq_zero_iff_dvd (monic_wordModulus bch),add_modByMonic,
    modByMonic_eq_self_iff (monic_wordModulus bch) |>.mpr (degree_modByMonic_lt _ (monic_wordModulus bch)),
    CharTwo.add_self_eq_zero]

/-- One octet of the slow path. -/
theorem encodes_octet (ht : EncoderTables bch) (hl : ws.length=eccWords bch) (hf : Fits 32 ws)
    (b : UInt8) :
    Encodes bch ws [b] (shiftWords ws (mod8TabRow bch (((ws.getD 0 0>>>24)^^^b.toNat)&&&0xff))) := by
  have hb := b.toNat_lt
  have hhi : ws.getD 0 0>>>24<2^8 := by
    have := hf.getD 0
    omega
  have hlt : (ws.getD 0 0>>>24)^^^b.toNat<2^8 := Nat.xor_lt_two_pow hhi hb
  have hand : ((ws.getD 0 0>>>24)^^^b.toNat)&&&0xff=(ws.getD 0 0>>>24)^^^b.toNat := by
    have := Nat.and_two_pow_sub_one_of_lt_two_pow hlt
    exact this
  rw [hand]
  set i := (ws.getD 0 0>>>24)^^^b.toNat with hi
  have hrl := ht.rowLength i (by omega)
  obtain ⟨hfit,hpoly⟩ := shiftWords_spec hf (ht.rowFits i (by omega)) (by rw [hl,hrl])
  apply encodes_of_dvd ht (by rw [length_shiftWords,hl]) hfit
  have hrow := row_dvd ht (b := 0) (by omega) hlt
  rw [Nat.mul_zero,Nat.zero_add,pow_zero,mul_one] at hrow
  have hsum : packed 32 (shiftWords ws (mod8TabRow bch i))+
      (packed 32 ws*X^(8*[b].length)+bytesPoly [b]*X^(32*eccWords bch))=
      packed 32 (mod8TabRow bch i)+bitPoly i*X^(32*eccWords bch) := by
    have hx : bitPoly i=bitPoly (ws.getD 0 0>>>24)+bitPoly b.toNat := bitSum_xor X _ _
    rw [hpoly,hl,hx,bytesPoly_cons,bytesPoly_nil,List.length_nil,Nat.mul_zero,pow_zero,
      List.length_cons,List.length_nil]
    have h2 : packed 32 ws*X^8+packed 32 ws*X^8=0 := CharTwo.add_self_eq_zero _
    linear_combination h2
  rw [hsum]
  exact hrow

/-- The slow path. -/
theorem encodes_unaligned (ht : EncoderTables bch) (data : List UInt8) (hl : ws.length=eccWords bch)
    (hf : Fits 32 ws) :
    Encodes bch ws data (encodeBchUnaligned bch data ws) := by
  induction data generalizing ws with
  | nil => exact encodes_nil ht hl hf
  | cons b data ih =>
    have hstep := encodes_octet ht hl hf b
    exact hstep.append ht (ih hstep.length hstep.fits)

/-- One word of the fast path. -/
theorem encodes_word (ht : EncoderTables bch) (hl : ws.length=eccWords bch) (hf : Fits 32 ws)
    (a b c d : UInt8) :
    Encodes bch ws [a,b,c,d] (wordStep bch ws (be32 a.toNat b.toNat c.toNat d.toNat)) := by
  obtain ⟨hwlt,hwpoly⟩ := bitPoly_be32 a.toNat_lt b.toNat_lt c.toNat_lt d.toNat_lt
  have hpos := ht.words_pos
  set data := be32 a.toNat b.toNat c.toNat d.toNat
  have hw : ws.getD 0 0^^^data<2^32 := Nat.xor_lt_two_pow (hf.getD 0) hwlt
  set w := ws.getD 0 0^^^data with hwd
  have hand : ∀ x, x&&&0xff=x%2^8 := fun x => Nat.and_two_pow_sub_one_eq_mod x 8
  have hlt : ∀ x, x&&&0xff<256 := by
    intro x
    rw [hand]
    exact Nat.mod_lt _ (by norm_num)
  have hlen : ∀ q<1024, (mod8TabRow bch q).length=eccWords bch := ht.rowLength
  have hz : (ws.tail++[0]).length=eccWords bch := by
    rw [List.length_append,List.length_tail,List.length_singleton,hl]
    omega
  have hzf : Fits 32 (ws.tail++[0]) := by
    intro x hx
    rcases List.mem_append.mp hx with h | h
    · exact hf x (List.mem_of_mem_tail h)
    · rw [List.mem_singleton.mp h]
      norm_num
  have hzp : packed 32 (ws.tail++[0])=packed 32 ws*X^32+bitPoly (ws.getD 0 0)*X^(32*eccWords bch) := by
    cases ws with
    | nil =>
      rw [List.length_nil] at hl
      omega
    | cons e es =>
      have hle : 32*eccWords bch=32*es.length+32 := by
        rw [←hl,List.length_cons]
        ring
      rw [packed_append,List.tail_cons,packed_singleton,packed_cons,List.getD_cons_zero,
        List.length_singleton,Nat.mul_one,hle,pow_add,bitPoly,bitSum_zero]
      have h2 : bitPoly e*X^(32*es.length)*X^32+bitPoly e*X^(32*es.length)*X^32=0 :=
        CharTwo.add_self_eq_zero _
      linear_combination -h2
  -- the word as four octets at their places
  have hsplit : bitPoly w=bitPoly (w&&&0xff)+bitPoly ((w>>>8)&&&0xff)*X^8+
      bitPoly ((w>>>16)&&&0xff)*X^16+bitPoly ((w>>>24)&&&0xff)*X^24 := by
    have h0 := bitSum_split (X : (ZMod 2)[X]) w 8
    have h1 := bitSum_split (X : (ZMod 2)[X]) (w>>>8) 8
    have h2 := bitSum_split (X : (ZMod 2)[X]) (w>>>16) 8
    have h3 : (w>>>24)%2^8=w>>>24 := Nat.mod_eq_of_lt (by
      omega)
    rw [←Nat.shiftRight_add] at h1 h2
    rw [hand,hand,hand,hand,h3]
    change bitSum X w=_
    rw [h0,h1,h2]
    ring
  unfold wordStep xorRows
  have e0 := hlen (w&&&0xff) (by have := hlt w; omega)
  have e1 := hlen (256+((w>>>8)&&&0xff)) (by have := hlt (w>>>8); omega)
  have e2 := hlen (512+((w>>>16)&&&0xff)) (by have := hlt (w>>>16); omega)
  have e3 := hlen (768+((w>>>24)&&&0xff)) (by have := hlt (w>>>24); omega)
  have f0 := ht.rowFits (w&&&0xff) (by have := hlt w; omega)
  have f1 := ht.rowFits (256+((w>>>8)&&&0xff)) (by have := hlt (w>>>8); omega)
  have f2 := ht.rowFits (512+((w>>>16)&&&0xff)) (by have := hlt (w>>>16); omega)
  have f3 := ht.rowFits (768+((w>>>24)&&&0xff)) (by have := hlt (w>>>24); omega)
  have d0 := row_dvd ht (b := 0) (by omega) (hlt w)
  have d1 := row_dvd ht (b := 1) (by omega) (hlt (w>>>8))
  have d2 := row_dvd ht (b := 2) (by omega) (hlt (w>>>16))
  have d3 := row_dvd ht (b := 3) (by omega) (hlt (w>>>24))
  rw [Nat.mul_zero,Nat.zero_add,pow_zero,mul_one] at d0
  have l0 : (List.zipWith (·^^^·) (ws.tail++[0]) (mod8TabRow bch (w&&&0xff))).length=eccWords bch := by
    rw [List.length_zipWith,hz,e0,Nat.min_self]
  have l1 : (List.zipWith (·^^^·) (List.zipWith (·^^^·) (ws.tail++[0]) (mod8TabRow bch (w&&&0xff)))
      (mod8TabRow bch (256+((w>>>8)&&&0xff)))).length=eccWords bch := by
    rw [List.length_zipWith,l0,e1,Nat.min_self]
  have l2 : (List.zipWith (·^^^·) (List.zipWith (·^^^·) (List.zipWith (·^^^·) (ws.tail++[0])
      (mod8TabRow bch (w&&&0xff))) (mod8TabRow bch (256+((w>>>8)&&&0xff))))
      (mod8TabRow bch (512+((w>>>16)&&&0xff)))).length=eccWords bch := by
    rw [List.length_zipWith,l1,e2,Nat.min_self]
  apply encodes_of_dvd ht (by rw [List.length_zipWith,l2,e3,Nat.min_self])
    (fits_zipWith_xor (fits_zipWith_xor (fits_zipWith_xor (fits_zipWith_xor hzf f0) f1) f2) f3)
  rw [packed_zipWith_xor (by rw [l2,e3]),packed_zipWith_xor (by rw [l1,e2]),
    packed_zipWith_xor (by rw [l0,e1]),packed_zipWith_xor (by rw [hz,e0]),hzp]
  have hx : bitPoly w=bitPoly (ws.getD 0 0)+bitPoly data := bitSum_xor X _ _
  have hbytes : bytesPoly [a,b,c,d]=bitPoly data := hwpoly.symm
  rw [hbytes]
  have hd := dvd_add (dvd_add (dvd_add d0 d1) d2) d3
  refine Eq.mp (congrArg (wordModulus bch ∣ ·) ?_) hd
  have h2 : packed 32 ws*X^32+packed 32 ws*X^32=0 := CharTwo.add_self_eq_zero _
  have hl4 : [a,b,c,d].length=4 := rfl
  rw [hl4]
  linear_combination (hx-hsplit)*X^(32*eccWords bch)-h2

end Steps

section Buffers

variable {bch : BchControl}

/-- The fast path. -/
theorem encodes_words (ht : EncoderTables bch) (data : List UInt8) {ws : List ℕ}
    (hl : ws.length=eccWords bch) (hf : Fits 32 ws) :
    ∃ done, data=done++(encodeWords bch data ws).2 ∧ Encodes bch ws done (encodeWords bch data ws).1 := by
  induction data,ws using encodeWords.induct bch with
  | case1 a b c d rest ws ih =>
    have hstep := encodes_word ht hl hf a b c d
    obtain ⟨done,hd,henc⟩ := ih hstep.length hstep.fits
    rw [encodeWords]
    exact ⟨[a,b,c,d]++done,by rw [List.append_assoc,←hd]; rfl,hstep.append ht henc⟩
  | case2 rest ws hshort =>
    have hnil : encodeWords bch rest ws=(ws,rest) := by
      unfold encodeWords
      split
      · next a b c d rest' => exact absurd rfl (hshort a b c d rest')
      · rfl
    rw [hnil]
    exact ⟨[],rfl,encodes_nil ht hl hf⟩

/-- All three stages, for every alignment. -/
theorem encodes_stages (ht : EncoderTables bch) (align : ℕ) (data : List UInt8) {ws : List ℕ}
    (hl : ws.length=eccWords bch) (hf : Fits 32 ws) :
    Encodes bch ws data (encodeStages bch align data ws) := by
  unfold encodeStages
  set k := if align%4≠0 then (if data.length<4-align%4 then data.length else 4-align%4) else 0
  have h1 := encodes_unaligned ht (data.take k) hl hf
  obtain ⟨done,hd,h2⟩ := encodes_words ht (data.drop k) h1.length h1.fits
  have h3 := encodes_unaligned ht
    (encodeWords bch (data.drop k) (encodeBchUnaligned bch (data.take k) ws)).2 h2.length h2.fits
  have hall := (h1.append ht h2).append ht h3
  rw [List.append_assoc,←hd,List.take_append_drop] at hall
  exact hall

/-- Words in groups of four octets. -/
theorem flatten_quads (f : ℕ → ℕ) (n : ℕ) :
    ((List.range n).map fun i => [f (4*i),f (4*i+1),f (4*i+2),f (4*i+3)]).flatten=
      (List.range (4*n)).map f := by
  induction n with
  | zero => rfl
  | succ n ih =>
    rw [List.range_succ,List.map_append,List.flatten_append,ih,Nat.mul_succ,List.range_add,List.map_append]
    rfl

/-- The bytes followed by zeros up to a whole number of words. -/
theorem padded_bytes (ht : EncoderTables bch) {src : List UInt8} (hs : src.length=bch.eccBytes) :
    (List.range (4*(eccWords bch-1))).map (fun i => (src.getD i 0).toNat)++
      [0,1,2,3].map (fun j => if j<bch.eccBytes-4*(eccWords bch-1) then
        (src.getD (4*(eccWords bch-1)+j) 0).toNat else 0)=
      src.map UInt8.toNat++List.replicate (4*eccWords bch-bch.eccBytes) 0 := by
  have hle := ht.bytes_le
  have hgt := ht.bytes_gt
  have hsrc : ∀ i, (src.map UInt8.toNat++List.replicate (4*eccWords bch-bch.eccBytes) 0).getD i 0=
      if i<bch.eccBytes then (src.getD i 0).toNat else 0 := by
    intro i
    split
    · next hi =>
      rw [List.getD_append _ _ _ _ (by rw [List.length_map,hs]; exact hi),
        List.getD_eq_getElem _ _ (by rw [List.length_map,hs]; exact hi),List.getElem_map,
        List.getD_eq_getElem _ _ (by rw [hs]; exact hi)]
    · next hi =>
      rw [List.getD_append_right _ _ _ _ (by rw [List.length_map,hs]; omega)]
      rw [List.getD_eq_getElem?_getD,List.getElem?_replicate]
      split <;> rfl
  apply ext_getD 0
  · simp [hs]
    omega
  · intro i hi
    have hlen : i<4*(eccWords bch-1)+4 := by simpa using hi
    rw [hsrc]
    rcases Nat.lt_or_ge i (4*(eccWords bch-1)) with hlow | hhigh
    · rw [List.getD_append _ _ _ _ (by simpa using hlow),getD_range_map _ _ hlow,if_pos (by omega)]
    · obtain ⟨j,rfl⟩ := Nat.exists_eq_add_of_le hhigh
      rw [List.getD_append_right _ _ _ _ (by simp)]
      have hj : j=0 ∨ j=1 ∨ j=2 ∨ j=3 := by omega
      have hiff : ∀ k, (k<bch.eccBytes-4*(eccWords bch-1)) ↔ 4*(eccWords bch-1)+k<bch.eccBytes := by
        intro k
        omega
      rw [List.length_map,List.length_range,Nat.add_sub_cancel_left]
      simp only [←hiff]
      rcases hj with rfl | rfl | rfl | rfl <;> rfl

/-- Loading the parity bytes moves their polynomial to the top of the words. -/
theorem loadEcc8_spec (ht : EncoderTables bch) {src : List UInt8} (hs : src.length=bch.eccBytes) :
    (loadEcc8 bch src).length=eccWords bch ∧ Fits 32 (loadEcc8 bch src) ∧
      packed 32 (loadEcc8 bch src)=bytesPoly src*X^(32*eccWords bch-8*bch.eccBytes) := by
  have hpos := ht.words_pos
  set f : ℕ → ℕ := fun i => (src.getD i 0).toNat with hf
  set pad : ℕ → ℕ := fun j => if j<bch.eccBytes-4*(eccWords bch-1) then
    (src.getD (4*(eccWords bch-1)+j) 0).toNat else 0 with hpad
  have hflt : ∀ i, f i<2^8 := fun i => (src.getD i 0).toNat_lt
  have hplt : ∀ i, pad i<2^8 := by
    intro i
    rw [hpad]
    dsimp only
    split
    · exact (src.getD _ 0).toNat_lt
    · norm_num
  set quad : List ℕ → ℕ := fun c => be32 (c.getD 0 0) (c.getD 1 0) (c.getD 2 0) (c.getD 3 0) with hquad
  set chunks := ((List.range (eccWords bch-1)).map fun i => [f (4*i),f (4*i+1),f (4*i+2),f (4*i+3)])++
    [[pad 0,pad 1,pad 2,pad 3]] with hchunks
  have hload : loadEcc8 bch src=chunks.map quad := by
    rw [hchunks,List.map_append,List.map_map]
    rfl
  have hmem : ∀ c ∈ chunks, c.length=4 ∧ Fits 8 c := by
    intro c hc
    rcases List.mem_append.mp hc with h | h
    · obtain ⟨i,-,rfl⟩ := List.mem_map.mp h
      refine ⟨rfl,?_⟩
      intro w hw
      simp only [List.mem_cons,List.not_mem_nil,or_false] at hw
      rcases hw with rfl | rfl | rfl | rfl <;> exact hflt _
    · rw [List.mem_singleton.mp h]
      refine ⟨rfl,?_⟩
      intro w hw
      simp only [List.mem_cons,List.not_mem_nil,or_false] at hw
      rcases hw with rfl | rfl | rfl | rfl <;> exact hplt _
  have hquadspec : ∀ c, c.length=4 → Fits 8 c → quad c<2^32 ∧ bitPoly (quad c)=packed 8 c := by
    intro c hl hfit
    obtain ⟨w,x,y,z,rfl⟩ : ∃ w x y z, c=[w,x,y,z] := List.length_eq_four.mp hl
    obtain ⟨hw,h'⟩ := fits_cons.mp hfit
    obtain ⟨hx,h'⟩ := fits_cons.mp h'
    obtain ⟨hy,h'⟩ := fits_cons.mp h'
    obtain ⟨hz,-⟩ := fits_cons.mp h'
    exact bitPoly_be32 hw hx hy hz
  have hflat : chunks.flatten=
      src.map UInt8.toNat++List.replicate (4*eccWords bch-bch.eccBytes) 0 := by
    rw [hchunks,List.flatten_append,flatten_quads,←padded_bytes ht hs]
    rfl
  rw [hload]
  refine ⟨?_,?_,?_⟩
  · rw [List.length_map,hchunks,List.length_append,List.length_map,List.length_range,
      List.length_singleton]
    omega
  · intro w hw
    obtain ⟨c,hc,rfl⟩ := List.mem_map.mp hw
    obtain ⟨h1,h2⟩ := hmem c hc
    exact (hquadspec c h1 h2).1
  · have hjoin := packed_join (k := 8) (s := 4) quad chunks fun c hc =>
      ⟨(hmem c hc).1,(hquadspec c (hmem c hc).1 (hmem c hc).2).2⟩
    rw [hjoin,hflat,packed_append,packed_replicate,add_zero,List.length_replicate,Nat.mul_sub]
    congr 2
    omega

theorem wordBytes_toNat {w : ℕ} (hw : w<2^32) : (wordBytes w).length=4 ∧
    bytesPoly (wordBytes w)=bitPoly w := by
  have hand : ∀ x, x&&&0xff=x%2^8 := fun x => Nat.and_two_pow_sub_one_eq_mod x 8
  have hn : ∀ x, (UInt8.ofNat (x&&&0xff)).toNat=x%2^8 := by
    intro x
    rw [hand,UInt8.toNat_ofNat']
    exact Nat.mod_mod x (2^8)
  have h3 : (UInt8.ofNat (w>>>24)).toNat=w>>>24 := by
    rw [UInt8.toNat_ofNat',Nat.mod_eq_of_lt]
    omega
  refine ⟨rfl,?_⟩
  have h0 := bitSum_split (X : (ZMod 2)[X]) w 8
  have h1 := bitSum_split (X : (ZMod 2)[X]) (w>>>8) 8
  have h2 := bitSum_split (X : (ZMod 2)[X]) (w>>>16) 8
  rw [←Nat.shiftRight_add] at h1 h2
  rw [wordBytes,bytesPoly_cons,bytesPoly_cons,bytesPoly_cons,bytesPoly_cons,bytesPoly_nil,h3,hn,hn,hn]
  change _=bitSum X w
  rw [h0,h1,h2]
  simp only [List.length_cons,List.length_nil]
  ring

/-- Storing the words keeps the polynomial when the bits below the parity
bytes are zero. -/
theorem storeEcc8_spec (ht : EncoderTables bch) {ws : List ℕ} (hl : ws.length=eccWords bch)
    (hf : Fits 32 ws) {p : (ZMod 2)[X]}
    (hp : packed 32 ws=p*X^(32*eccWords bch-8*bch.eccBytes)) :
    (storeEcc8 bch ws).length=bch.eccBytes ∧ bytesPoly (storeEcc8 bch ws)=p := by
  have hle := ht.bytes_le
  have hgt := ht.bytes_gt
  have hall : bytesPoly (ws.flatMap wordBytes)=packed 32 ws ∧ (ws.flatMap wordBytes).length=4*ws.length := by
    clear hl hp
    induction ws with
    | nil => exact ⟨rfl,rfl⟩
    | cons w ws ih =>
      obtain ⟨hw,hws⟩ := fits_cons.mp hf
      obtain ⟨h1,h2⟩ := wordBytes_toNat hw
      obtain ⟨h3,h4⟩ := ih hws
      rw [List.flatMap_cons,bytesPoly_append,h2,h3,h4,List.length_append,h1,h4,packed_cons,List.length_cons]
      refine ⟨?_,by ring⟩
      congr 3
      ring
  have hstore : storeEcc8 bch ws=(ws.flatMap wordBytes).take bch.eccBytes := by
    have hws : ws=(List.range (eccWords bch-1)).map (fun i => ws.getD i 0)++[ws.getD (eccWords bch-1) 0] := by
      apply ext_getD 0
      · simp [hl]
        omega
      · intro i hi
        rcases Nat.lt_or_ge i (eccWords bch-1) with h | h
        · rw [List.getD_append _ _ _ _ (by simpa using h),getD_range_map _ _ h]
        · have he : i=eccWords bch-1 := by omega
          rw [List.getD_append_right _ _ _ _ (by simpa using h),he]
          simp
    have hfm : ws.flatMap wordBytes=((List.range (eccWords bch-1)).flatMap fun i => wordBytes (ws.getD i 0))++
        wordBytes (ws.getD (eccWords bch-1) 0) := by
      conv_lhs => rw [hws]
      rw [List.flatMap_append,List.flatMap_map]
      simp
    have hlen : ((List.range (eccWords bch-1)).flatMap fun i => wordBytes (ws.getD i 0)).length=
        4*(eccWords bch-1) := by
      simp [wordBytes,Nat.mul_comm]
    rw [hfm,List.take_append,hlen,List.take_of_length_le (by rw [hlen]; omega)]
    rfl
  have hlen : (storeEcc8 bch ws).length=bch.eccBytes := by
    rw [hstore,List.length_take,hall.2,hl]
    omega
  refine ⟨hlen,?_⟩
  have hcut := bytesPoly_append (storeEcc8 bch ws) ((ws.flatMap wordBytes).drop bch.eccBytes)
  rw [hstore,List.take_append_drop,hall.1,hp,←hstore,List.length_drop,hall.2,hl] at hcut
  have hexp : 8*(4*eccWords bch-bch.eccBytes)=32*eccWords bch-8*bch.eccBytes := by omega
  rw [hexp] at hcut
  -- what is cut off has a degree below the power that divides both sides
  set k := 32*eccWords bch-8*bch.eccBytes with hk
  have hdeg : (bytesPoly ((ws.flatMap wordBytes).drop bch.eccBytes)).degree<((X : (ZMod 2)[X])^k).degree := by
    have hd := degree_packed_lt (fits_bytes ((ws.flatMap wordBytes).drop bch.eccBytes))
    rw [List.length_map,List.length_drop,hall.2,hl,hexp] at hd
    rw [degree_X_pow]
    exact hd
  have hdiv := div_modByMonic_unique (f := p*X^k) (g := X^k) (bytesPoly (storeEcc8 bch ws))
    (bytesPoly ((ws.flatMap wordBytes).drop bch.eccBytes)) (monic_X_pow k)
    ⟨by rw [hcut]; ring,hdeg⟩
  have hdiv' := div_modByMonic_unique (f := p*X^k) (g := X^k) p 0 (monic_X_pow k)
    ⟨by ring,by rw [degree_zero,degree_X_pow]; exact WithBot.bot_lt_coe _⟩
  exact hdiv.1.symm.trans hdiv'.1

end Buffers

section Parity

variable {bch : BchControl} {R : (ZMod 2)[X]}

/-- The parity buffer holds the polynomial `R`, highest coefficient in the
top bit of the first octet and zeros after the last one. -/
structure LeftJustified (bch : BchControl) (ecc : List UInt8) (R : (ZMod 2)[X]) : Prop where
  /-- The buffer has the size the library asks for. -/
  length : ecc.length=bch.eccBytes
  /-- The polynomial fits the parity bits. -/
  degree : R.degree<bch.eccBits
  /-- The octets are the polynomial, moved to the top. -/
  poly : bytesPoly ecc=R*X^(8*bch.eccBytes-bch.eccBits)

/-- A buffer of zeros is the initial parity. -/
theorem leftJustified_zero (bch : BchControl) :
    LeftJustified bch (List.replicate bch.eccBytes 0) 0 where
  length := List.length_replicate
  degree := by
    exact WithBot.bot_lt_coe _
  poly := by
    rw [zero_mul,bytesPoly,List.map_replicate]
    exact packed_replicate _

/-- The buffer is determined by the polynomial. -/
theorem LeftJustified.unique {ecc ecc' : List UInt8} (h : LeftJustified bch ecc R)
    (h' : LeftJustified bch ecc' R) : ecc=ecc' :=
  bytesPoly_injective (by rw [h.length,h'.length]) (by rw [h.poly,h'.poly])

/-- Reducing by a multiple of the modulus reduces the other factor. -/
theorem mul_modByMonic_mul (p : (ZMod 2)[X]) {g : (ZMod 2)[X]} (hg : g.Monic) (k : ℕ) :
    (p*X^k) %ₘ (g*X^k)=(p %ₘ g)*X^k := by
  apply (div_modByMonic_unique (p /ₘ g) ((p %ₘ g)*X^k) (hg.mul (monic_X_pow k)) ⟨?_,?_⟩).2
  · calc p %ₘ g*X^k+g*X^k*(p /ₘ g)=(p %ₘ g+g*(p /ₘ g))*X^k := by ring
      _=p*X^k := by rw [modByMonic_add_div]
  · rw [degree_mul,degree_mul,degree_X_pow]
    exact WithBot.add_lt_add_right (WithBot.coe_ne_bot) (degree_modByMonic_lt p hg)

/-- The words that `encode_bch` starts from hold the parity. -/
theorem packed_loadEcc8 (ht : EncoderTables bch) {ecc : List UInt8} (h : LeftJustified bch ecc R) :
    packed 32 (loadEcc8 bch ecc)=R*X^(32*eccWords bch-bch.eccBits) := by
  have hb := ht.bits_le
  have hy := ht.bytes_le
  have hexp : 32*eccWords bch-bch.eccBits=
      8*bch.eccBytes-bch.eccBits+(32*eccWords bch-8*bch.eccBytes) := by omega
  rw [(loadEcc8_spec ht h.length).2.2,h.poly,hexp,pow_add]
  ring

/-- The words after all stages hold the remainder, moved to the top. -/
theorem packed_encodeStages (ht : EncoderTables bch) (align : ℕ) (data : List UInt8) {ws : List ℕ}
    (hl : ws.length=eccWords bch) (hf : Fits 32 ws)
    (hp : packed 32 ws=R*X^(32*eccWords bch-bch.eccBits)) :
    packed 32 (encodeStages bch align data ws)=
      ((R*X^(8*data.length)+bytesPoly data*X^bch.eccBits) %ₘ generator bch)*
        X^(32*eccWords bch-bch.eccBits) := by
  have hb := ht.bits_le
  have hy := ht.bytes_le
  have hexp : 32*eccWords bch=bch.eccBits+(32*eccWords bch-bch.eccBits) := by omega
  rw [←mul_modByMonic_mul _ (monic_generator bch).1,(encodes_stages ht align data hl hf).poly,hp,wordModulus]
  congr 1
  conv_lhs => rw [hexp]
  have hsub : bch.eccBits+(32*eccWords bch-bch.eccBits)-bch.eccBits=32*eccWords bch-bch.eccBits := by omega
  rw [hsub]
  ring

/-- `encode_bch` leaves the remainder in the parity buffer. -/
theorem encodeBch_leftJustified (ht : EncoderTables bch) (align : ℕ) (data ecc : List UInt8)
    (h : LeftJustified bch ecc R) :
    ∃ ecc', (encodeBch bch align data (some ecc)).2=some ecc' ∧
      LeftJustified bch ecc' ((R*X^(8*data.length)+bytesPoly data*X^bch.eccBits) %ₘ generator bch) := by
  have hb := ht.bits_le
  have hy := ht.bytes_le
  obtain ⟨hl,hf,-⟩ := loadEcc8_spec ht h.length
  have henc := encodes_stages ht align data hl hf
  have hpoly := packed_encodeStages ht align data hl hf (packed_loadEcc8 ht h)
  have hexp : 32*eccWords bch-bch.eccBits=
      8*bch.eccBytes-bch.eccBits+(32*eccWords bch-8*bch.eccBytes) := by omega
  rw [hexp,pow_add,←mul_assoc] at hpoly
  obtain ⟨hsl,hsp⟩ := storeEcc8_spec ht henc.length henc.fits hpoly
  refine ⟨_,rfl,hsl,?_,hsp⟩
  have hd := degree_modByMonic_lt (R*X^(8*data.length)+bytesPoly data*X^bch.eccBits) (monic_generator bch).1
  rwa [degree_eq_natDegree (monic_generator bch).1.ne_zero,ht.degree] at hd

/-- Encoding only overwrites a scratch buffer. -/
theorem encodeBch_state (bch : BchControl) (align : ℕ) (data : List UInt8) (ecc : Option (List UInt8)) :
    ∃ buf, (encodeBch bch align data ecc).1={bch with eccBuf := buf} := ⟨_,rfl⟩

/-- Shifting in one buffer after another is shifting in their concatenation. -/
theorem remainder_append {g : (ZMod 2)[X]} (hg : g.Monic) (R : (ZMod 2)[X]) (d1 d2 : List UInt8) (k : ℕ) :
    ((R*X^(8*d1.length)+bytesPoly d1*X^k) %ₘ g*X^(8*d2.length)+bytesPoly d2*X^k) %ₘ g=
      (R*X^(8*(d1++d2).length)+bytesPoly (d1++d2)*X^k) %ₘ g := by
  set p := R*X^(8*d1.length)+bytesPoly d1*X^k with hp
  have hdiv := modByMonic_add_div p g
  have hsum : R*X^(8*(d1++d2).length)+bytesPoly (d1++d2)*X^k=
      (p %ₘ g*X^(8*d2.length)+bytesPoly d2*X^k)+g*(p /ₘ g*X^(8*d2.length)) := by
    rw [List.length_append,bytesPoly_append,Nat.mul_add,pow_add]
    linear_combination (-X^(8*d2.length))*hdiv+X^(8*d2.length)*hp
  have hz : (g*(p /ₘ g*X^(8*d2.length))) %ₘ g=0 :=
    (modByMonic_eq_zero_iff_dvd hg).mpr (dvd_mul_right _ _)
  rw [hsum,add_modByMonic _ (g*_),hz,add_zero]

end Parity

/-- For every structure that `init_bch` returns, every buffer, alignment
and initial parity, `encode_bch` leaves the remainder of the data shifted
in below the parity. So the alignment does not matter, and data may be
encoded piece by piece. -/
theorem encodeBch_remainder {uninit : ℕ → ℕ → ℕ} {m t : ℤ} {primPoly : ℕ} {bch : BchControl}
    (h : initBch uninit m t primPoly=some bch) {ecc : List UInt8} {R : (ZMod 2)[X]}
    (hecc : LeftJustified bch ecc R) :
    (∀ align data, ∃ ecc', (encodeBch bch align data (some ecc)).2=some ecc' ∧
      LeftJustified bch ecc' ((R*X^(8*data.length)+bytesPoly data*X^bch.eccBits) %ₘ generator bch)) ∧
    (∀ align align' data,
      (encodeBch bch align data (some ecc)).2=(encodeBch bch align' data (some ecc)).2) ∧
    ∀ align align' align'' d1 d2, ∃ ecc1, (encodeBch bch align d1 (some ecc)).2=some ecc1 ∧
      (encodeBch (encodeBch bch align d1 (some ecc)).1 align' d2 (some ecc1)).2=
        (encodeBch bch align'' (d1++d2) (some ecc)).2 := by
  have ht := encoderTables_of_built (initBch_built uninit h).1
  refine ⟨fun align data => encodeBch_leftJustified ht align data ecc hecc,?_,?_⟩
  · intro align align' data
    obtain ⟨e1,he1,h1⟩ := encodeBch_leftJustified ht align data ecc hecc
    obtain ⟨e2,he2,h2⟩ := encodeBch_leftJustified ht align' data ecc hecc
    rw [he1,he2,h1.unique h2]
  · intro align align' align'' d1 d2
    obtain ⟨e1,he1,h1⟩ := encodeBch_leftJustified ht align d1 ecc hecc
    obtain ⟨buf,hbuf⟩ := encodeBch_state bch align d1 (some ecc)
    obtain ⟨ht',hg⟩ := @encoderTables_congr _ {bch with eccBuf := buf} ht rfl rfl rfl rfl rfl rfl rfl rfl
    have h1' : LeftJustified {bch with eccBuf := buf} e1
        ((R*X^(8*d1.length)+bytesPoly d1*X^bch.eccBits) %ₘ generator bch) := ⟨h1.length,h1.degree,h1.poly⟩
    obtain ⟨e2,he2,h2⟩ := encodeBch_leftJustified ht' align' d2 e1 h1'
    obtain ⟨e3,he3,h3⟩ := encodeBch_leftJustified ht align'' (d1++d2) ecc hecc
    refine ⟨e1,he1,?_⟩
    rw [hbuf,he2,he3]
    rw [hg] at h2
    have h2' : LeftJustified bch e2
        (((R*X^(8*d1.length)+bytesPoly d1*X^bch.eccBits) %ₘ generator bch*X^(8*d2.length)+
          bytesPoly d2*X^bch.eccBits) %ₘ generator bch) := ⟨h2.length,h2.degree,h2.poly⟩
    rw [remainder_append (monic_generator bch).1] at h2'
    rw [h2'.unique h3]

/-- Three octets encoded at an odd address, for five-bit fields and two errors. -/
theorem encodeBch_remainder_example : ∃ bch, initBch (fun _ _ => 0) 5 2 0=some bch ∧
    ∃ ecc', (encodeBch bch 1 [0x5a,0x3c,0x81] (some [0,0])).2=some ecc' ∧
      LeftJustified bch ecc'
        ((0*X^(8*3)+bytesPoly [0x5a,0x3c,0x81]*X^bch.eccBits) %ₘ generator bch) := by
  have hs : (initBch (fun _ _ => 0) 5 2 0).isSome=true := by decide +kernel
  obtain ⟨bch,hb⟩ := Option.isSome_iff_exists.mp hs
  have hby : bch.eccBytes=2 := (initBch_built _ hb).1.eccBytes_eq.trans (by
    rw [(initBch_built _ hb).2.1,(initBch_built _ hb).2.2.1]
    rfl)
  have hecc : LeftJustified bch [0,0] 0 := by
    have h0 := leftJustified_zero bch
    rwa [hby] at h0
  exact ⟨bch,hb,(encodeBch_remainder hb hecc).1 1 [0x5a,0x3c,0x81]⟩

end ArdroneKernel.BchEncodeCorrect
