import Mathlib.Data.Nat.Bitwise
import Mathlib.Tactic.Ring

/-!
# Relocation fields of the DSP loader

`dload_repack` stuffs a value into a bit field of the program image and
`dload_unpack` extracts it. The field lies in bytes that run upwards or
downwards with the byte order of the target; its low bits are in the byte that
both start at.
-/

namespace ArdroneKernel.DloadReloc

/-! ## The image -/

/-- The memory that the image lies in. -/
structure Image where
  /-- The bytes, by address. -/
  byte : ℤ → BitVec 8
  /-- The addresses read or written so far, the last one first. -/
  touched : List ℤ

namespace Image

/-- Reading through a pointer. -/
def load (im : Image) (dp : ℤ) : Image := ⟨im.byte,dp::im.touched⟩

/-- Storing through a pointer. -/
def store (im : Image) (dp : ℤ) (x : BitVec 8) : Image :=
  ⟨fun a => if a=dp then x else im.byte a,dp::im.touched⟩

end Image

/-- The overflow rules of `reloc_table.h` for a bit field. -/
inductive Rop where
  /-- No overflow ever. -/
  | ropAny
  /-- A signed field. -/
  | ropSgn
  /-- An unsigned field. -/
  | ropUns
  /-- The range of either a signed or an unsigned field. -/
  | ropMax
  deriving DecidableEq

namespace Rop

/-- The number that stands for the rule. -/
def code : Rop → ℕ
  | ropAny => 0
  | ropSgn => 1
  | ropUns => 2
  | ropMax => 3

/-- A value fits a field of `w` bits by the rule. -/
def Fits (r : Rop) (w : ℕ) (v : ℤ) : Prop :=
  match r with
  | ropAny => True
  | ropSgn => -2^(w-1)≤ v∧v<2^(w-1)
  | ropUns => 0≤ v∧v<2^w
  | ropMax => -2^(w-1)≤ v∧v<2^w

instance (r : Rop) (w : ℕ) (v : ℤ) : Decidable (r.Fits w v) := by
  unfold Fits
  cases r <;> exact inferInstance

end Rop

/-! ## The code -/

/-- The direction that the field runs in from the byte with its low bits. -/
def direction (bigEndian : Bool) : ℤ := if bigEndian then -1 else 1

/-- The byte with the low bits of the field; `fieldsz` is one less than the width. -/
def lowByte (bigEndian : Bool) (data : ℤ) (fieldsz offset : ℕ) : ℤ :=
  if bigEndian then data+((fieldsz+offset)>>>3 : ℕ) else data

/-- The loop of `dload_unpack` that collects the bits after the first byte. -/
def collect (dir : ℤ) (fieldsz : ℕ) (im : Image) (dp : ℤ) (objval : BitVec 32) (shift : ℕ) :
    Image×BitVec 32 :=
  if shift≤fieldsz then
    collect dir fieldsz (im.load (dp+dir)) (dp+dir)
      (objval+((im.byte (dp+dir)).setWidth 32<<<shift)) (shift+8)
  else (im,objval)
termination_by fieldsz+1-shift

/-- `dload_unpack`. -/
def dloadUnpack (bigEndian : Bool) (im : Image) (data : ℤ) (width offset : ℕ) (sgn : Rop) :
    BitVec 32×Image :=
  let fieldsz := width-1
  let dp := lowByte bigEndian data fieldsz offset
  let objval := (im.byte dp).setWidth 32>>>offset
  let (im,objval) := collect (direction bigEndian) fieldsz (im.load dp) dp objval (8-offset)
  if sgn=.ropUns then (objval&&&((2#32<<<fieldsz)-1),im)
  else ((objval<<<(31-fieldsz)).sshiftRight (31-fieldsz),im)

/-- The loop of `dload_repack` that stores the bits after the first byte. -/
def scatter (dir : ℤ) (im : Image) (dp : ℤ) (objval mask : BitVec 32) : Image :=
  if mask=0 then im
  else
    scatter dir
      ((im.load (dp+dir)).store (dp+dir)
        ((((im.byte (dp+dir)).setWidth 32&&&~~~mask)+objval).setWidth 8))
      (dp+dir) (objval>>>8) (mask>>>8)
termination_by mask.toNat
decreasing_by
  rw [BitVec.toNat_ushiftRight,Nat.shiftRight_eq_div_pow]
  exact Nat.div_lt_self (by bv_omega) (by decide)

/-- The limits that the top of a value is compared with. -/
def ovfLimit : List ℕ := [1,2,2]

/-- The check of `dload_repack` for overflow. -/
def overflows (val : BitVec 32) (fieldsz : ℕ) (sgn : Rop) : Bool :=
  if sgn.code=0 then false
  else
    let tmp := val.sshiftRight fieldsz+BitVec.ofNat 32 (sgn.code&&&1)
    decide (tmp.toNat>ovfLimit.getD (sgn.code-1) 0)

/-- `dload_repack`. -/
def dloadRepack (bigEndian : Bool) (val : BitVec 32) (im : Image) (data : ℤ) (width offset : ℕ)
    (sgn : Rop) : ℕ×Image :=
  let fieldsz := width-1
  let mask := (2#32<<<fieldsz)-1
  let objval := val&&&mask
  let dp := lowByte bigEndian data fieldsz offset
  let im := (im.load dp).store dp
    ((((im.byte dp).setWidth 32&&&~~~(mask<<<offset))+(objval<<<offset)).setWidth 8)
  let shift := 8-offset
  let im := scatter (direction bigEndian) im dp (objval>>>shift) (mask>>>shift)
  if overflows val fieldsz sgn then (1,im) else (0,im)

/-! ## The place of a field -/

/-- The byte that holds bit `i` of a field of `w` bits. -/
def placeOf (bigEndian : Bool) (data : ℤ) (w offset i : ℕ) : ℤ :=
  if bigEndian then data+((w-1+offset)/8 : ℕ)-((offset+i)/8 : ℕ) else data+((offset+i)/8 : ℕ)

/-- The field holds this bit of this byte. -/
def InField (bigEndian : Bool) (data : ℤ) (w offset : ℕ) (a : ℤ) (b : ℕ) : Prop :=
  ∃ i< w,a=placeOf bigEndian data w offset i∧b=(offset+i)%8

/-- A field is stored and checked exactly: nothing outside it changes, no other byte is touched,
the value reads back cut to the width, and what does not fit is reported. -/
structure Exact (bigEndian : Bool) (val : BitVec 32) (im : Image) (data : ℤ) (w offset : ℕ)
    (sgn : Rop) : Prop where
  /-- No other bit changes. -/
  frame : ∀ a b,b<8 → ¬InField bigEndian data w offset a b →
    ((dloadRepack bigEndian val im data w offset sgn).2.byte a).getLsbD b=(im.byte a).getLsbD b
  /-- Storing touches the bytes of the field only. -/
  stores : ∀ a ∈ (dloadRepack bigEndian val im data w offset sgn).2.touched,
    a ∈ im.touched∨∃ i< w,a=placeOf bigEndian data w offset i
  /-- Extracting touches the bytes of the field only. -/
  loads : ∀ im' : Image,∀ a ∈ (dloadUnpack bigEndian im' data w offset sgn).2.touched,
    a ∈ im'.touched∨∃ i< w,a=placeOf bigEndian data w offset i
  /-- The value comes back cut to the width, extended by the rule. -/
  readBack : (dloadUnpack bigEndian (dloadRepack bigEndian val im data w offset sgn).2 data w offset
      sgn).1=if sgn=.ropUns then (val.setWidth w).setWidth 32 else (val.setWidth w).signExtend 32
  /-- A value that does not fit is reported, and no other. -/
  result : (dloadRepack bigEndian val im data w offset sgn).1=
    if sgn.Fits w val.toInt then 0 else 1

variable {bigEndian : Bool} {val objval mask : BitVec 32} {im : Image} {data dir dp a : ℤ}
  {w offset fieldsz shift b i n : ℕ} {sgn : Rop}

/-! ## Masks -/

theorem getLsbD_mask (hw : 0< w) :
    ((2#32<<<(w-1))-1).getLsbD i=(decide (i<32)&&decide (i< w)) := by
  have hmask : (2#32<<<(w-1))-1=BitVec.ofNat 32 (2^w-1) := by
    have hpow : 2^w=2*2^(w-1) := by rw [←pow_succ',Nat.sub_add_cancel hw]
    have hpos : 0<2^(w-1) := Nat.two_pow_pos _
    have hone : (1 : BitVec 32).toNat=1 := rfl
    refine BitVec.eq_of_toNat_eq ?_
    norm_num
    omega
  rw [hmask,BitVec.getLsbD_ofNat,Nat.testBit_two_pow_sub_one]

/-- Numbers without a common bit are added bit by bit. -/
theorem getLsbD_add_apart {x y : BitVec 32} (h : ∀ i,(x.getLsbD i&&y.getLsbD i)=false) :
    (x+y).getLsbD i=(x.getLsbD i||y.getLsbD i) := by
  rw [BitVec.add_eq_or_of_and_eq_zero,BitVec.getLsbD_or]
  refine BitVec.eq_of_getLsbD_eq fun i _ => ?_
  rw [BitVec.getLsbD_and,h,BitVec.getLsbD_zero]

/-- A byte stored through a mask takes the bits of the value where the mask has one. -/
theorem getLsbD_masked (x : BitVec 8) (hsub : ∀ i,objval.getLsbD i → mask.getLsbD i) (hb : b<8) :
    (((x.setWidth 32&&&~~~mask)+objval).setWidth 8).getLsbD b=
      if mask.getLsbD b then objval.getLsbD b else x.getLsbD b := by
  have hapart : ∀ i,((x.setWidth 32&&&~~~mask).getLsbD i&&objval.getLsbD i)=false := by
    intro i
    have hi := hsub i
    cases h : objval.getLsbD i
    · simp
    · simp [hi h]
  have hb' : b<32 := by omega
  rw [BitVec.getLsbD_setWidth,getLsbD_add_apart hapart,BitVec.getLsbD_and,BitVec.getLsbD_not,
    BitVec.getLsbD_setWidth,decide_eq_true hb,decide_eq_true hb']
  have hi := hsub b
  cases hm : mask.getLsbD b
  · have ho : objval.getLsbD b=false := by
      rw [Bool.eq_false_iff]
      intro h
      rw [hi h] at hm
      cases hm
    simp [ho]
  · simp

/-! ## The loops -/

theorem direction_cases (bigEndian : Bool) : direction bigEndian=1∨direction bigEndian=-1 := by
  cases bigEndian
  · exact Or.inl rfl
  · exact Or.inr rfl

theorem placeOf_eq (i : ℕ) :
    placeOf bigEndian data w offset i=
      lowByte bigEndian data (w-1) offset+direction bigEndian*((offset+i)/8 : ℕ) := by
  unfold placeOf lowByte direction
  rw [Nat.shiftRight_eq_div_pow]
  cases bigEndian
  · simp
  · simp only [if_true]
    ring

theorem mask_ne_zero (h : mask.getLsbD i=true) : mask≠0 := by
  intro hmask
  rw [hmask,show (0 : BitVec 32)=0#32 from rfl,BitVec.getLsbD_zero] at h
  cases h

theorem sub_shift (hsub : ∀ i,objval.getLsbD i → mask.getLsbD i) (n : ℕ) :
    ∀ i,(objval>>>n).getLsbD i → (mask>>>n).getLsbD i := by
  intro i
  rw [BitVec.getLsbD_ushiftRight,BitVec.getLsbD_ushiftRight]
  exact hsub (n+i)

/-- The loop leaves the bits alone that the rest of the mask does not reach. -/
theorem scatter_out (hsub : ∀ i,objval.getLsbD i → mask.getLsbD i)
    (hb : b<8) (hout : ∀ k : ℕ,a=dp+dir*((k+1 : ℕ) : ℤ) → mask.getLsbD (8*k+b)=false) :
    ((scatter dir im dp objval mask).byte a).getLsbD b=(im.byte a).getLsbD b := by
  induction im, dp, objval, mask using scatter.induct dir with
  | case1 im dp objval => rw [scatter,if_pos rfl]
  | case2 im dp objval mask hmask ih =>
    have hnext : ∀ k : ℕ,a=dp+dir+dir*((k+1 : ℕ) : ℤ) → (mask>>>8).getLsbD (8*k+b)=false := by
      intro k hk
      have hk' := hout (k+1) (by
        rw [hk]
        push_cast
        ring)
      rw [BitVec.getLsbD_ushiftRight]
      rwa [show 8+(8*k+b)=8*(k+1)+b by omega]
    have hsub' := sub_shift hsub 8
    rw [scatter,if_neg hmask,ih hsub' hnext]
    unfold Image.store
    dsimp only
    by_cases ha : a=dp+dir
    · have hbit := hout 0 (by
        rw [ha]
        ring)
      rw [Nat.mul_zero,Nat.zero_add] at hbit
      rw [if_pos ha,getLsbD_masked _ hsub hb,hbit,if_neg Bool.false_ne_true,ha]
    · rw [if_neg ha]
      rfl

/-- The loop stores the bits of the value that the rest of the mask reaches. -/
theorem scatter_in (hdir : dir=1∨dir=-1) (hsub : ∀ i,objval.getLsbD i → mask.getLsbD i)
    (hb : b<8) (hin : mask.getLsbD (8*n+b)=true) :
    ((scatter dir im dp objval mask).byte (dp+dir*((n+1 : ℕ) : ℤ))).getLsbD b=
      objval.getLsbD (8*n+b) := by
  induction n generalizing im dp objval mask with
  | zero =>
    have hbit : 8*0+b=b := by omega
    rw [hbit] at hin ⊢
    have hmask := mask_ne_zero hin
    have hsub' := sub_shift hsub 8
    have hplace : dp+dir*((0+1 : ℕ) : ℤ)=dp+dir := by
      ring
    rw [scatter,if_neg hmask,hplace,scatter_out hsub' hb]
    · unfold Image.store
      dsimp only
      rw [if_pos rfl,getLsbD_masked _ hsub hb,if_pos hin]
    · intro k hk
      rcases hdir with rfl|rfl <;> omega
  | succ n ih =>
    have hmask := mask_ne_zero hin
    have hsub' := sub_shift hsub 8
    have hplace : dp+dir*((n+1+1 : ℕ) : ℤ)=dp+dir+dir*((n+1 : ℕ) : ℤ) := by
      push_cast
      ring
    have hbit : 8+(8*n+b)=8*(n+1)+b := by omega
    rw [scatter,if_neg hmask,hplace,ih hsub']
    · rw [BitVec.getLsbD_ushiftRight,hbit]
    · rw [BitVec.getLsbD_ushiftRight,hbit,hin]

/-- The loop touches a byte for every eight bits of the mask. -/
theorem scatter_touched (h : a ∈ (scatter dir im dp objval mask).touched) :
    a ∈ im.touched∨∃ k : ℕ,a=dp+dir*((k+1 : ℕ) : ℤ)∧mask>>>(8*k)≠0 := by
  induction im, dp, objval, mask using scatter.induct dir with
  | case1 im dp objval =>
    rw [scatter,if_pos rfl] at h
    exact Or.inl h
  | case2 im dp objval mask hmask ih =>
    rw [scatter,if_neg hmask] at h
    have hfirst : a=dp+dir → ∃ k : ℕ,a=dp+dir*((k+1 : ℕ) : ℤ)∧mask>>>(8*k)≠0 := by
      intro ha
      refine ⟨0,?_,by simpa using hmask⟩
      rw [ha]
      ring
    rcases ih h with hold | ⟨k,hk,hne⟩
    · rcases List.mem_cons.mp hold with ha | hold
      · exact Or.inr (hfirst ha)
      · rcases List.mem_cons.mp hold with ha | hold
        · exact Or.inr (hfirst ha)
        · exact Or.inl hold
    · refine Or.inr ⟨k+1,?_,?_⟩
      · rw [hk]
        push_cast
        ring
      · rwa [Nat.mul_add,Nat.mul_one,Nat.add_comm (8*k),BitVec.shiftRight_add]

/-- The loop collects the bits after those that it starts with. -/
theorem collect_bit (hzero : ∀ i,shift≤ i → objval.getLsbD i=false) (hsz : fieldsz<32)
    (hi : i≤fieldsz) :
    (collect dir fieldsz im dp objval shift).2.getLsbD i=
      if i<shift then objval.getLsbD i
      else (im.byte (dp+dir*(((i-shift)/8+1 : ℕ) : ℤ))).getLsbD ((i-shift)%8) := by
  induction im, dp, objval, shift using collect.induct dir fieldsz with
  | case1 im dp objval shift hshift ih =>
    have hapart : ∀ i,(objval.getLsbD i&&((im.byte (dp+dir)).setWidth 32<<<shift).getLsbD i)=
        false := by
      intro i
      by_cases h : i<shift
      · simp [h]
      · rw [hzero i (by omega),Bool.false_and]
    have hsum : ∀ i,(objval+((im.byte (dp+dir)).setWidth 32<<<shift)).getLsbD i=
        (objval.getLsbD i||(decide (i<32)&&!decide (i<shift)&&
          (decide (i-shift<32)&&(im.byte (dp+dir)).getLsbD (i-shift)))) := by
      intro i
      rw [getLsbD_add_apart hapart,BitVec.getLsbD_shiftLeft,BitVec.getLsbD_setWidth]
    rw [collect,if_pos hshift,ih]
    · rw [hsum]
      by_cases h : i<shift
      · simp [h,show i<shift+8 by omega]
      · rw [if_neg h,hzero i (by omega)]
        by_cases h8 : i<shift+8
        · have hdiv : (i-shift)/8=0 := by omega
          have hmod : (i-shift)%8=i-shift := by omega
          have hplace : dp+dir*((0+1 : ℕ) : ℤ)=dp+dir := by
            ring
          rw [if_pos h8,hdiv,hmod,hplace]
          simp [h,show i<32 by omega,show i-shift<32 by omega]
        · have hdiv : (i-shift)/8=(i-(shift+8))/8+1 := by omega
          have hmod : (i-shift)%8=(i-(shift+8))%8 := by omega
          rw [if_neg h8,hdiv,hmod]
          have hplace : dp+dir+dir*(((i-(shift+8))/8+1 : ℕ) : ℤ)=
              dp+dir*(((i-(shift+8))/8+1+1 : ℕ) : ℤ) := by
            push_cast
            ring
          rw [hplace]
          rfl
    · intro i hle
      rw [hsum,hzero i (by omega),BitVec.getLsbD_of_ge _ (i-shift) (by omega)]
      simp
  | case2 im dp objval shift hshift => rw [collect,if_neg hshift,if_pos (by omega)]

/-- The loop touches a byte for every eight bits that are missing. -/
theorem collect_touched (h : a ∈ (collect dir fieldsz im dp objval shift).1.touched) :
    a ∈ im.touched∨∃ k : ℕ,a=dp+dir*((k+1 : ℕ) : ℤ)∧shift+8*k≤fieldsz := by
  induction im, dp, objval, shift using collect.induct dir fieldsz with
  | case1 im dp objval shift hshift ih =>
    rw [collect,if_pos hshift] at h
    rcases ih h with hold | ⟨k,hk,hle⟩
    · rcases List.mem_cons.mp hold with ha | hold
      · refine Or.inr ⟨0,?_,by omega⟩
        rw [ha]
        ring
      · exact Or.inl hold
    · refine Or.inr ⟨k+1,?_,by omega⟩
      rw [hk]
      push_cast
      ring
  | case2 im dp objval shift hshift =>
    rw [collect,if_neg hshift] at h
    exact Or.inl h

/-! ## Storing and extracting -/

theorem getLsbD_clipped (hw : 0< w) (hi : i< w) (hw32 : w≤32) :
    (val&&&((2#32<<<(w-1))-1)).getLsbD i=val.getLsbD i := by
  rw [BitVec.getLsbD_and,getLsbD_mask hw,decide_eq_true hi,
    decide_eq_true (show i<32 by omega),Bool.and_true,Bool.and_true]

theorem clipped_sub : ∀ i,(val&&&mask).getLsbD i → mask.getLsbD i := by
  intro i hi
  rw [BitVec.getLsbD_and,Bool.and_eq_true] at hi
  exact hi.2

theorem sub_shiftLeft (hsub : ∀ i,objval.getLsbD i → mask.getLsbD i) (n : ℕ) :
    ∀ i,(objval<<<n).getLsbD i → (mask<<<n).getLsbD i := by
  intro i hi
  rw [BitVec.getLsbD_shiftLeft,Bool.and_eq_true] at hi ⊢
  exact ⟨hi.1,hsub _ hi.2⟩

theorem repack_image :
    (dloadRepack bigEndian val im data w offset sgn).2=
      scatter (direction bigEndian)
        ((im.load (lowByte bigEndian data (w-1) offset)).store (lowByte bigEndian data (w-1) offset)
          ((((im.byte (lowByte bigEndian data (w-1) offset)).setWidth 32&&&
            ~~~(((2#32<<<(w-1))-1)<<<offset))+((val&&&((2#32<<<(w-1))-1))<<<offset)).setWidth 8))
        (lowByte bigEndian data (w-1) offset) ((val&&&((2#32<<<(w-1))-1))>>>(8-offset))
        (((2#32<<<(w-1))-1)>>>(8-offset)) := by
  unfold dloadRepack
  dsimp only
  split <;> rfl

theorem place_apart (bigEndian : Bool) (k : ℕ) :
    dp≠dp+direction bigEndian*((k+1 : ℕ) : ℤ) := by
  rcases direction_cases bigEndian with hdir | hdir <;> rw [hdir] <;> omega

/-- The bits of the field are the bits of the value. -/
theorem repack_bit (hw : 0< w) (hw32 : w≤32) (hoff : offset<8) (hi : i< w) :
    ((dloadRepack bigEndian val im data w offset sgn).2.byte
      (placeOf bigEndian data w offset i)).getLsbD ((offset+i)%8)=val.getLsbD i := by
  have hb : (offset+i)%8<8 := Nat.mod_lt _ (by decide)
  have hbit := getLsbD_mask (i := i) hw
  rw [decide_eq_true hi,decide_eq_true (show i<32 by omega),Bool.and_true] at hbit
  rw [repack_image,placeOf_eq]
  rcases hplace : (offset+i)/8 with _ | n
  · have hlow : (offset+i)%8=offset+i := by omega
    have hsub : offset+i-offset=i := by omega
    rw [Nat.cast_zero,Int.mul_zero,Int.add_zero,
      scatter_out (sub_shift clipped_sub _) hb fun k hk => absurd hk (place_apart bigEndian k)]
    unfold Image.store
    dsimp only
    rw [if_pos rfl,getLsbD_masked _ (sub_shiftLeft clipped_sub offset) hb,hlow,
      BitVec.getLsbD_shiftLeft,BitVec.getLsbD_shiftLeft,hsub,hbit,getLsbD_clipped hw hi hw32,
      decide_eq_true (show offset+i<32 by omega),
      decide_eq_false (show ¬offset+i<offset by omega)]
    rfl
  · have hsum : 8-offset+(8*n+(offset+i)%8)=i := by omega
    rw [scatter_in (direction_cases bigEndian) (sub_shift clipped_sub _) hb]
    · rw [BitVec.getLsbD_ushiftRight,hsum,getLsbD_clipped hw hi hw32]
    · rw [BitVec.getLsbD_ushiftRight,hsum,hbit]

theorem repack_frame (hw : 0< w) (hoff : offset<8) (hb : b<8)
    (hout : ¬InField bigEndian data w offset a b) :
    ((dloadRepack bigEndian val im data w offset sgn).2.byte a).getLsbD b=
      (im.byte a).getLsbD b := by
  rw [repack_image,scatter_out (sub_shift clipped_sub _) hb]
  · unfold Image.store
    dsimp only
    by_cases ha : a=lowByte bigEndian data (w-1) offset
    · have hclear : (((2#32<<<(w-1))-1)<<<offset).getLsbD b=false := by
        rw [BitVec.getLsbD_shiftLeft,getLsbD_mask hw,Bool.eq_false_iff]
        intro h
        simp only [Bool.and_eq_true,Bool.not_eq_true',decide_eq_true_eq,decide_eq_false_iff_not]
          at h
        refine hout ⟨b-offset,h.2.2,?_,by omega⟩
        rw [placeOf_eq,ha,show (offset+(b-offset))/8=0 by omega,Nat.cast_zero,Int.mul_zero,
          Int.add_zero]
      rw [if_pos ha,getLsbD_masked _ (sub_shiftLeft clipped_sub offset) hb,hclear,
        if_neg Bool.false_ne_true,ha]
    · rw [if_neg ha]
      rfl
  · intro k hk
    rw [BitVec.getLsbD_ushiftRight,getLsbD_mask hw,Bool.eq_false_iff]
    intro h
    simp only [Bool.and_eq_true,decide_eq_true_eq] at h
    refine hout ⟨8-offset+(8*k+b),h.2,?_,by omega⟩
    rw [placeOf_eq,hk,show (offset+(8-offset+(8*k+b)))/8=k+1 by omega]

theorem lowByte_place (hoff : offset<8) :
    lowByte bigEndian data (w-1) offset=placeOf bigEndian data w offset 0 := by
  rw [placeOf_eq,show (offset+0)/8=0 by omega,Nat.cast_zero,Int.mul_zero,Int.add_zero]

theorem repack_touched (hw : 0< w) (hoff : offset<8)
    (h : a ∈ (dloadRepack bigEndian val im data w offset sgn).2.touched) :
    a ∈ im.touched∨∃ i< w,a=placeOf bigEndian data w offset i := by
  rw [repack_image] at h
  rcases scatter_touched h with hold | ⟨k,hk,hne⟩
  · rcases List.mem_cons.mp hold with ha | hold
    · exact Or.inr ⟨0,hw,ha.trans (lowByte_place hoff)⟩
    · rcases List.mem_cons.mp hold with ha | hold
      · exact Or.inr ⟨0,hw,ha.trans (lowByte_place hoff)⟩
      · exact Or.inl hold
  · refine Or.inr ⟨8-offset+8*k,?_,?_⟩
    · -- beyond the width the mask has run out
      by_contra hle
      refine hne (BitVec.eq_of_getLsbD_eq fun i _ => ?_)
      rw [BitVec.getLsbD_ushiftRight,BitVec.getLsbD_ushiftRight,getLsbD_mask hw,
        decide_eq_false (show ¬8-offset+(8*k+i)< w by omega),Bool.and_false]
      exact BitVec.getLsbD_zero.symm
    · rw [placeOf_eq,hk,show (offset+(8-offset+8*k))/8=k+1 by omega]

theorem unpack_touched (hw : 0< w) (hoff : offset<8)
    (h : a ∈ (dloadUnpack bigEndian im data w offset sgn).2.touched) :
    a ∈ im.touched∨∃ i< w,a=placeOf bigEndian data w offset i := by
  unfold dloadUnpack at h
  rw [apply_ite Prod.snd,ite_self] at h
  rcases collect_touched h with hold | ⟨k,hk,hle⟩
  · rcases List.mem_cons.mp hold with ha | hold
    · exact Or.inr ⟨0,hw,ha.trans (lowByte_place hoff)⟩
    · exact Or.inl hold
  · refine Or.inr ⟨8-offset+8*k,by omega,?_⟩
    rw [placeOf_eq,hk,show (offset+(8-offset+8*k))/8=k+1 by omega]

/-- The value read is the field, extended by the rule. -/
theorem unpack_value {x : BitVec w} (hw : 0< w) (hw32 : w≤32) (hoff : offset<8)
    (hbits : ∀ i< w,(im.byte (placeOf bigEndian data w offset i)).getLsbD ((offset+i)%8)=
      x.getLsbD i) :
    (dloadUnpack bigEndian im data w offset sgn).1=
      if sgn=.ropUns then x.setWidth 32 else x.signExtend 32 := by
  have hcollect : ∀ i< w,(collect (direction bigEndian) (w-1)
      (im.load (lowByte bigEndian data (w-1) offset)) (lowByte bigEndian data (w-1) offset)
      ((im.byte (lowByte bigEndian data (w-1) offset)).setWidth 32>>>offset) (8-offset)).2.getLsbD
        i=x.getLsbD i := by
    intro i hi
    rw [←hbits i hi,collect_bit _ (by omega) (by omega),placeOf_eq]
    · by_cases hlow : i<8-offset
      · rw [if_pos hlow,BitVec.getLsbD_ushiftRight,BitVec.getLsbD_setWidth,
          show (offset+i)/8=0 by omega,show (offset+i)%8=offset+i by omega,Nat.cast_zero,
          Int.mul_zero,Int.add_zero,decide_eq_true (show offset+i<32 by omega),Bool.true_and]
      · rw [if_neg hlow,show (i-(8-offset))/8+1=(offset+i)/8 by omega,
          show (i-(8-offset))%8=(offset+i)%8 by omega]
        rfl
    · intro i hi
      rw [BitVec.getLsbD_ushiftRight,BitVec.getLsbD_setWidth,
        BitVec.getLsbD_of_ge _ _ (show 8≤offset+i by omega),Bool.and_false]
  unfold dloadUnpack
  dsimp only
  by_cases hr : sgn=.ropUns
  · rw [if_pos hr,if_pos hr]
    refine BitVec.eq_of_getLsbD_eq fun i hi => ?_
    rw [BitVec.getLsbD_and,getLsbD_mask hw,BitVec.getLsbD_setWidth,decide_eq_true hi]
    by_cases hiw : i< w
    · rw [hcollect i hiw,decide_eq_true hiw,Bool.true_and,Bool.and_true,Bool.true_and]
    · rw [decide_eq_false hiw,BitVec.getLsbD_of_ge x i (by omega)]
      simp
  · rw [if_neg hr,if_neg hr]
    refine BitVec.eq_of_getLsbD_eq fun i hi => ?_
    rw [BitVec.getLsbD_sshiftRight,BitVec.getLsbD_signExtend,decide_eq_true hi,
      decide_eq_false (show ¬32≤ i by omega),Bool.not_false,Bool.true_and,Bool.true_and,
      BitVec.getLsbD_shiftLeft,BitVec.msb_eq_getLsbD_last,BitVec.getLsbD_shiftLeft,
      BitVec.msb_eq_getLsbD_last]
    have hlast := hcollect (w-1) (by omega)
    rw [show 32-1-(31-(w-1))=w-1 by omega,hlast]
    by_cases hiw : i< w
    · rw [if_pos hiw,if_pos (by omega),show 31-(w-1)+i-(31-(w-1))=i by omega,hcollect i hiw,
        decide_eq_true (show 31-(w-1)+i<32 by omega),
        decide_eq_false (show ¬31-(w-1)+i<31-(w-1) by omega)]
      simp
    · rw [if_neg hiw,if_neg (by omega),
        decide_eq_false (show ¬32-1<31-(w-1) by omega)]
      simp

/-! ## The check for overflow -/

/-- The sum of a shifted value and a carry, taken as unsigned, is at most a small limit exactly
when the sum of the numbers lies between zero and the limit. -/
theorem limit_iff {x : BitVec 32} {c limit : ℕ} (hc : c≤1) (hlimit : limit≤2) :
    (x+BitVec.ofNat 32 c).toNat≤limit ↔ 0≤ x.toInt+c∧x.toInt+c≤limit := by
  rw [BitVec.toNat_add,BitVec.toNat_ofNat,BitVec.toInt_eq_toNat_cond]
  split <;> omega

theorem top_iff {c limit : ℕ} (w : ℕ) (hc : c≤1) (hlimit : limit≤2) :
    (val.sshiftRight w+BitVec.ofNat 32 c).toNat≤limit ↔
      -(c : ℤ)*2^w≤val.toInt∧val.toInt<(limit-c+1)*2^w := by
  have hpos : (0 : ℤ)<2^w := Int.pow_pos (by decide)
  have htop : (val.sshiftRight w).toInt=val.toInt/2^w := by
    rw [BitVec.toInt_sshiftRight,Int.shiftRight_eq_div_pow]
    norm_cast
  rw [limit_iff hc hlimit,htop,←Int.le_ediv_iff_mul_le hpos,←Int.ediv_lt_iff_lt_mul hpos]
  omega

/-- The check lets pass what fits and, for unsigned fields, the values up to one and a half
times the bound. -/
theorem overflows_eq (hw : 0< w) :
    overflows val (w-1) sgn=
      !decide (sgn.Fits w val.toInt∨sgn=.ropUns∧2^w≤val.toInt∧val.toInt<3*2^(w-1)) := by
  have hpow : (2 : ℤ)^w=2*2^(w-1) := by rw [←pow_succ',Nat.sub_add_cancel hw]
  have hcheck : ∀ c limit : ℕ,c≤1 → limit≤2 → ∀ p : Prop,
      [Decidable p] → (p ↔ -(c : ℤ)*2^(w-1)≤val.toInt∧val.toInt<(limit-c+1)*2^(w-1)) →
      decide ((val.sshiftRight (w-1)+BitVec.ofNat 32 c).toNat>limit)=!decide p := by
    intro c limit hc hlimit p _ hp
    rw [←decide_not,decide_eq_decide,hp,←top_iff (w-1) hc hlimit]
    exact Nat.not_le.symm
  cases sgn with
  | ropAny => simp [overflows,Rop.Fits,Rop.code]
  | ropSgn =>
    refine hcheck 1 1 (by decide) (by decide) _ ?_
    simp only [Rop.Fits,reduceCtorEq,false_and,or_false]
    omega
  | ropUns =>
    refine hcheck 0 2 (by decide) (by decide) _ ?_
    simp only [Rop.Fits,true_and,hpow]
    omega
  | ropMax =>
    refine hcheck 1 2 (by decide) (by decide) _ ?_
    simp only [Rop.Fits,reduceCtorEq,false_and,or_false,hpow]
    omega

theorem repack_result :
    (dloadRepack bigEndian val im data w offset sgn).1=
      if overflows val (w-1) sgn then 1 else 0 := by
  unfold dloadRepack
  dsimp only
  split <;> rfl

/-- A field is stored and checked exactly, but for the values of an unsigned field that the limit
lets pass: they are cut without a report. -/
theorem relocation_exact_iff (bigEndian : Bool) (val : BitVec 32) (im : Image) (data : ℤ)
    (w offset : ℕ) (sgn : Rop) (hw : 0< w) (hw32 : w≤32) (hoff : offset<8) :
    Exact bigEndian val im data w offset sgn ↔
      ¬(sgn=.ropUns∧2^w≤val.toInt∧val.toInt<3*2^(w-1)) := by
  have hresult := @repack_result bigEndian val im data w offset sgn
  rw [overflows_eq hw] at hresult
  constructor
  · rintro hexact ⟨hr,hlow,hhigh⟩
    have hunfit : ¬sgn.Fits w val.toInt := by
      rw [hr]
      exact fun h => absurd h.2 (not_lt.mpr hlow)
    have hone := hexact.result
    rw [hresult,if_neg hunfit,decide_eq_true (Or.inr ⟨hr,hlow,hhigh⟩)] at hone
    cases hone
  · intro hlimit
    refine ⟨fun a b hb hout => repack_frame hw hoff hb hout,
      fun a ha => repack_touched hw hoff ha,fun im' a ha => unpack_touched hw hoff ha,?_,?_⟩
    · refine unpack_value hw hw32 hoff fun i hi => ?_
      rw [repack_bit hw hw32 hoff hi,BitVec.getLsbD_setWidth,decide_eq_true hi,Bool.true_and]
    · rw [hresult]
      by_cases hfits : sgn.Fits w val.toInt
      · rw [if_pos hfits,decide_eq_true (Or.inl hfits)]
        rfl
      · rw [if_neg hfits,decide_eq_false fun h => h.elim hfits hlimit]
        rfl

theorem relocation_exact_iff_example :
    Exact true 255 ⟨fun _ => 0,[]⟩ 0 8 4 .ropUns :=
  (relocation_exact_iff true 255 ⟨fun _ => 0,[]⟩ 0 8 4 .ropUns (by decide) (by decide)
    (by decide)).mpr (by decide)

/-- The value 256 is stored into an unsigned field of eight bits without a report. -/
theorem unsigned_field_truncates :
    ¬∀ (bigEndian : Bool) (val : BitVec 32) (im : Image) (data : ℤ) (w offset : ℕ) (sgn : Rop),
      0< w → w≤32 → offset<8 → Exact bigEndian val im data w offset sgn := by
  intro h
  have hone := (h false 256 ⟨fun _ => 0,[]⟩ 0 8 0 .ropUns (by decide) (by decide)
    (by decide)).result
  revert hone
  decide

/-- Fields without a common bit may be stored in either order. -/
theorem repack_comm {x y : BitVec 32} {d e : ℤ} {v w o q : ℕ} {r s : Rop} (hv : 0<v∧v≤32∧o<8)
    (hw : 0<w∧w≤32∧q<8) (hapart : ∀ a b,InField bigEndian d v o a b → ¬InField bigEndian e w q a b) :
    (dloadRepack bigEndian y (dloadRepack bigEndian x im d v o r).2 e w q s).2.byte=
      (dloadRepack bigEndian x (dloadRepack bigEndian y im e w q s).2 d v o r).2.byte := by
  obtain ⟨hv,hv32,ho⟩ := hv
  obtain ⟨hw,hw32,hq⟩ := hw
  funext a
  refine BitVec.eq_of_getLsbD_eq fun b hb => ?_
  by_cases h : InField bigEndian d v o a b
  · have hne := hapart a b h
    obtain ⟨i,hi,rfl,rfl⟩ := h
    rw [repack_frame hw hq hb hne,repack_bit hv hv32 ho hi,repack_bit hv hv32 ho hi]
  · rw [repack_frame hv ho hb h]
    by_cases g : InField bigEndian e w q a b
    · obtain ⟨i,hi,rfl,rfl⟩ := g
      rw [repack_bit hw hw32 hq hi,repack_bit hw hw32 hq hi]
    · rw [repack_frame hw hq hb g,repack_frame hw hq hb g,repack_frame hv ho hb h]

theorem repack_comm_example :
    (dloadRepack true 6 (dloadRepack true 9 ⟨fun _ => 0,[]⟩ 0 12 0 .ropUns).2 0 4 4 .ropAny).2.byte=
      (dloadRepack true 9 (dloadRepack true 6 ⟨fun _ => 0,[]⟩ 0 4 4 .ropAny).2 0 12 0 .ropUns).2.byte := by
  refine repack_comm (by decide) (by decide) ?_
  rintro a b ⟨i,hi,rfl,rfl⟩ ⟨j,hj,h⟩
  simp [placeOf] at h
  omega

end ArdroneKernel.DloadReloc
