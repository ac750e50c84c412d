import ArdroneKernel.LittleEndian

/-!
# A buffer with checked addresses

Reading and writing bytes of a buffer at any integer address, which fails when a
byte outside is touched. Addresses count from the start of the buffer.
-/

namespace ArdroneKernel.CheckedBuffer

open LittleEndian

/-- So many bytes from an address on are in the buffer. -/
def Holds (buf : List UInt8) (a : ℤ) (n : ℕ) : Prop := n=0∨0≤a∧a+n≤buf.length

instance (buf : List UInt8) (a : ℤ) (n : ℕ) : Decidable (Holds buf a n) :=
  inferInstanceAs (Decidable (_∨_))

/-- The bytes from an address on. -/
def readBytes (buf : List UInt8) (a : ℤ) (n : ℕ) : Option (List UInt8) :=
  if Holds buf a n then some ((buf.drop a.toNat).take n) else none

/-- The number in the bytes from an address on. -/
def readField (buf : List UInt8) (a : ℤ) (n : ℕ) : Option ℕ :=
  if Holds buf a n then some (field buf a.toNat n) else none

/-- The buffer after some bytes are written. -/
def writeBytes (buf : List UInt8) (a : ℤ) (xs : List UInt8) : Option (List UInt8) :=
  if xs=[] then some buf else if Holds buf a xs.length then some (patch buf a.toNat xs) else none

/-- The buffer after so many bytes are set. -/
def fill (buf : List UInt8) (a : ℤ) (n : ℕ) (v : UInt8) : Option (List UInt8) :=
  if n=0 then some buf
  else if Holds buf a n then some (patch buf a.toNat (List.replicate n v)) else none

/-- How many bytes equal a value one after the other, of so many. Reading stops at the first that
does not. -/
def countRun (buf : List UInt8) (v : UInt8) : ℤ → ℕ → Option ℕ
  | _, 0 => some 0
  | a, n+1 =>
    (readField buf a 1).bind fun x =>
      if x=v.toNat then (countRun buf v (a+1) n).map (·+1) else some 0

variable {buf buf' xs : List UInt8} {a b : ℤ} {k m n i : ℕ} {v : UInt8}

/-! ## Reading -/

theorem Holds.cast (h : k+n≤buf.length) : Holds buf (k : ℤ) n := Or.inr ⟨by omega,by omega⟩

theorem Holds.not (hn : 0<n) (h : a<0∨buf.length<a+n) : ¬Holds buf a n := by
  unfold Holds
  omega

theorem readBytes_eq (h : k+n≤buf.length) :
    readBytes buf (k : ℤ) n=some ((buf.drop k).take n) := by
  unfold readBytes
  rw [if_pos (Holds.cast h),Int.toNat_natCast]

theorem readField_eq (h : k+n≤buf.length) : readField buf (k : ℤ) n=some (field buf k n) := by
  unfold readField
  rw [if_pos (Holds.cast h),Int.toNat_natCast]

theorem readBytes_none (hn : 0<n) (h : a<0∨buf.length<a+n) : readBytes buf a n=none := by
  unfold readBytes
  rw [if_neg (Holds.not hn h)]

/-- A byte as a number of one byte. -/
theorem field_one (h : k<buf.length) : field buf k 1=buf[k].toNat := by
  unfold field
  rw [List.drop_eq_getElem_cons h,List.take_succ_cons,List.take_zero,leVal,leVal,Nat.mul_zero,
    Nat.add_zero]

theorem field_eq_byte (h : k<buf.length) (x : UInt8) :
    field buf k 1=x.toNat ↔ buf[k]?=some x := by
  rw [field_one h,List.getElem?_eq_getElem h,Option.some_inj,UInt8.toNat_inj]

/-- Counting stays inside and stops where a byte is different. -/
theorem countRun_spec (h : k+n≤buf.length) :
    ∃ m≤ n,countRun buf v (k : ℤ) n=some m∧(∀ j< m,buf[k+j]?=some v)∧
      (m<n → buf[k+m]?≠some v) := by
  induction n generalizing k with
  | zero => exact ⟨0,le_rfl,rfl,fun j hj => absurd hj (Nat.not_lt_zero j),
      fun hlt => absurd hlt (Nat.lt_irrefl 0)⟩
  | succ n ih =>
    rw [countRun,readField_eq (show k+1≤buf.length by omega),Option.bind_some]
    split_ifs with hv
    · have hbyte := (field_eq_byte (by omega) v).mp hv
      obtain ⟨m,hm,hcount,hrun,hstop⟩ := ih (show k+1+n≤buf.length by omega)
      have hcast : (k : ℤ)+1=((k+1 : ℕ) : ℤ) := by omega
      refine ⟨m+1,by omega,?_,fun j hj => ?_,fun hlt => ?_⟩
      · rw [hcast,hcount]
        rfl
      · rcases Nat.eq_zero_or_pos j with rfl | hj'
        · exact hbyte
        · have hnext := hrun (j-1) (by omega)
          rwa [show k+1+(j-1)=k+j by omega] at hnext
      · have hnext := hstop (by omega)
        rwa [show k+1+m=k+(m+1) by omega] at hnext
    · refine ⟨0,Nat.zero_le _,rfl,fun j hj => absurd hj (Nat.not_lt_zero j),fun _ hbyte => ?_⟩
      exact hv ((field_eq_byte (by omega) v).mpr hbyte)

/-! ## Writing -/

theorem writeBytes_eq (h : k+xs.length≤buf.length) :
    writeBytes buf (k : ℤ) xs=some (patch buf k xs) := by
  unfold writeBytes
  split_ifs with hnil hin
  · subst hnil
    unfold patch
    rw [List.append_nil,List.length_nil,Nat.add_zero,List.take_append_drop]
  · rw [Int.toNat_natCast]
  · exact absurd (Holds.cast h) hin

theorem fill_eq (h : k+n≤buf.length) :
    fill buf (k : ℤ) n v=some (patch buf k (List.replicate n v)) := by
  unfold fill
  split_ifs with hzero hin
  · subst hzero
    unfold patch
    rw [List.replicate_zero,List.append_nil,List.length_nil,Nat.add_zero,List.take_append_drop]
  · rw [Int.toNat_natCast]
  · exact absurd (Holds.cast h) hin

theorem writeBytes_none (hne : xs≠[]) (h : a<0∨buf.length<a+xs.length) :
    writeBytes buf a xs=none := by
  unfold writeBytes
  rw [if_neg hne,if_neg (Holds.not (List.length_pos_iff.mpr hne) h)]

theorem fill_none (hn : 0<n) (h : a<0∨buf.length<a+n) : fill buf a n v=none := by
  unfold fill
  rw [if_neg hn.ne',if_neg (Holds.not hn h)]

end ArdroneKernel.CheckedBuffer
