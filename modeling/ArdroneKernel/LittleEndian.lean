import Mathlib.Tactic.Ring

/-!
# Little-endian numbers in a buffer

A number of so many bytes, the low byte first, and overwriting some bytes of a
buffer.
-/

namespace ArdroneKernel.LittleEndian

/-- The number that some bytes stand for. -/
def leVal : List UInt8 → ℕ
  | [] => 0
  | x::xs => x.toNat+256*leVal xs

/-- So many low bytes of a number. -/
def leBytes : ℕ → ℕ → List UInt8
  | 0, _ => []
  | n+1, v => UInt8.ofNat v::leBytes n (v/256)

/-- The number in so many bytes of a buffer from a place on. -/
def field (buf : List UInt8) (k n : ℕ) : ℕ := leVal ((buf.drop k).take n)

/-- A buffer with some bytes overwritten. -/
def patch (buf : List UInt8) (k : ℕ) (xs : List UInt8) : List UInt8 :=
  buf.take k++xs++buf.drop (k+xs.length)

variable {buf buf' xs : List UInt8} {k n v i : ℕ}

@[simp] theorem length_leBytes (n v : ℕ) : (leBytes n v).length=n := by
  induction n generalizing v with
  | zero => rfl
  | succ n ih => exact congrArg (·+1) (ih (v/256))

theorem leVal_leBytes (n v : ℕ) : leVal (leBytes n v)=v%256^n := by
  induction n generalizing v with
  | zero => rw [leBytes,leVal,pow_zero,Nat.mod_one]
  | succ n ih =>
    have hsplit : v%256^(n+1)=v%256+256*(v/256%256^n) := by
      rw [pow_succ',Nat.mod_mul]
    rw [leBytes,leVal,ih,UInt8.toNat_ofNat',hsplit]

theorem leVal_leBytes_of_lt (h : v<256^n) : leVal (leBytes n v)=v := by
  rw [leVal_leBytes,Nat.mod_eq_of_lt h]

theorem leVal_lt (xs : List UInt8) : leVal xs<256^xs.length := by
  induction xs with
  | nil => exact Nat.one_pos
  | cons x xs ih =>
    rw [leVal,List.length_cons,pow_succ']
    have hx := x.toNat_lt
    omega

theorem field_lt (buf : List UInt8) (k n : ℕ) : field buf k n<256^n := by
  refine (leVal_lt _).trans_le (Nat.pow_le_pow_right (by decide) ?_)
  exact List.length_take_le _ _

/-- The largest number has all bits set. -/
theorem leVal_max (h : leVal xs+1=256^xs.length) : ∀ x∈xs,x=0xff := by
  induction xs with
  | nil => exact fun x hx => absurd hx List.not_mem_nil
  | cons y xs ih =>
    rw [leVal,List.length_cons,pow_succ'] at h
    have hy := y.toNat_lt
    intro x hx
    rcases List.mem_cons.mp hx with rfl | hx
    · refine UInt8.toNat_inj.mp ?_
      change x.toNat=255
      omega
    · exact ih (by omega) x hx

theorem field_max (hin : k+n≤buf.length) (h : field buf k n+1=256^n) (hi : i< n) :
    buf[k+i]?=some 0xff := by
  have hlen : ((buf.drop k).take n).length=n := by
    rw [List.length_take,List.length_drop]
    omega
  have hbytes := leVal_max (show leVal ((buf.drop k).take n)+1=_ by
    rw [hlen]
    exact h)
  have hget : ((buf.drop k).take n)[i]?=buf[k+i]? := by
    rw [List.getElem?_take,if_pos hi,List.getElem?_drop]
  rw [←hget,List.getElem?_eq_getElem (by omega)]
  exact congrArg some (hbytes _ (List.getElem_mem _))

/-! ## Overwriting -/

theorem length_patch (h : k+xs.length≤buf.length) : (patch buf k xs).length=buf.length := by
  unfold patch
  rw [List.length_append,List.length_append,List.length_take,List.length_drop]
  omega

/-- Bytes before and after the place stay. -/
theorem getElem?_patch_out (h : k+xs.length≤buf.length) (hi : i<k∨k+xs.length≤ i) :
    (patch buf k xs)[i]?=buf[i]? := by
  have htake : (buf.take k).length=k := by
    rw [List.length_take]
    omega
  unfold patch
  rcases hi with hi | hi
  · rw [List.append_assoc,List.getElem?_append_left (by omega),List.getElem?_take,if_pos hi]
  · rw [List.getElem?_append_right (by
      rw [List.length_append]
      omega),List.getElem?_drop,List.length_append,htake]
    congr 1
    omega

theorem getElem?_patch_in (h : k+xs.length≤buf.length) (hi : i<xs.length) :
    (patch buf k xs)[k+i]?=xs[i]? := by
  have htake : (buf.take k).length=k := by
    rw [List.length_take]
    omega
  unfold patch
  rw [List.append_assoc,List.getElem?_append_right (by omega),htake,Nat.add_sub_cancel_left,
    List.getElem?_append_left hi]

theorem field_congr (h : ∀ i< n,buf'[k+i]?=buf[k+i]?) : field buf' k n=field buf k n := by
  unfold field
  congr 1
  refine List.ext_getElem? fun i => ?_
  rw [List.getElem?_take,List.getElem?_take,List.getElem?_drop,List.getElem?_drop]
  split_ifs with hi
  · exact h i hi
  · rfl

/-- A number away from the place stays. -/
theorem field_patch_out {j : ℕ} (h : k+xs.length≤buf.length) (hj : j+n≤k∨k+xs.length≤j) :
    field (patch buf k xs) j n=field buf j n :=
  field_congr fun i hi => getElem?_patch_out h (by omega)

/-- The number at the place is the one written. -/
theorem field_patch_in (h : k+xs.length≤buf.length) :
    field (patch buf k xs) k xs.length=leVal xs := by
  unfold field
  congr 1
  refine List.ext_getElem? fun i => ?_
  rw [List.getElem?_take,List.getElem?_drop]
  split_ifs with hi
  · exact getElem?_patch_in h hi
  · exact (List.getElem?_eq_none (Nat.not_lt.mp hi)).symm

end ArdroneKernel.LittleEndian
