import Mathlib.Data.Nat.Bitwise
import Mathlib.Data.List.Basic
import Mathlib.Data.Nat.Log
import Mathlib.Tactic.Ring

/-!
# Tilings by aligned blocks

Blocks of power-of-two sizes follow each other from one position to another.
A block starts at a multiple of its size. The buddy of a block is the one it
forms an aligned block of twice the size with.
-/

namespace ArdroneKernel.AlignedBlocks

/-- Blocks follow each other from one position to another, each as large as
the order of its first position says. -/
def Tiles (order : ℕ → ℕ) : ℕ → ℕ → List ℕ → Prop
  | i, n, [] => i=n
  | i, n, h::hs => h=i∧Tiles order (i+2^order i) n hs

variable {order order' : ℕ → ℕ} {i n : ℕ} {hs : List ℕ} {x : ℕ}

theorem tiles_append {xs ys : List ℕ} :
    Tiles order i n (xs++ys) ↔ ∃ m,Tiles order i m xs∧Tiles order m n ys := by
  induction xs generalizing i with
  | nil => exact ⟨fun h => ⟨i,rfl,h⟩,fun ⟨m,hm,h⟩ => (show i=m from hm)▸h⟩
  | cons x xs ih =>
    constructor
    · intro ⟨hx,h⟩
      have ⟨m,h1,h2⟩ := ih.mp h
      exact ⟨m,⟨hx,h1⟩,h2⟩
    · intro ⟨m,⟨hx,h1⟩,h2⟩
      exact ⟨hx,ih.mpr ⟨m,h1,h2⟩⟩

theorem Tiles.le (h : Tiles order i n hs) : i≤n := by
  induction hs generalizing i with
  | nil => exact h.le
  | cons x xs ih => exact (Nat.le_add_right _ _).trans (ih h.2)

theorem Tiles.bounds (h : Tiles order i n hs) (hx : x∈hs) : i≤x∧x+2^order x≤n := by
  induction hs generalizing i with
  | nil => cases hx
  | cons y ys ih =>
    have ⟨hy,hrest⟩ := h
    rcases List.mem_cons.mp hx with rfl|hx
    · rw [hy]
      exact ⟨le_rfl,hrest.le⟩
    · have hb := ih hrest hx
      exact ⟨(Nat.le_add_right _ _).trans hb.1,hb.2⟩

theorem Tiles.lt (h : Tiles order i n hs) (hx : x∈hs) : x< n := by
  have hb := (h.bounds hx).2
  have hp := Nat.two_pow_pos (order x)
  omega

theorem Tiles.congr (h : Tiles order i n hs) (same : ∀ x∈hs,order' x=order x) :
    Tiles order' i n hs := by
  induction hs generalizing i with
  | nil => exact h
  | cons x xs ih =>
    have ⟨hx,hrest⟩ := h
    subst hx
    refine ⟨rfl,?_⟩
    rw [same x List.mem_cons_self]
    exact ih hrest fun y hy => same y (List.mem_cons_of_mem _ hy)

/-- A block of a tiling splits it into two. -/
theorem Tiles.at (h : Tiles order i n hs) (hx : x∈hs) :
    ∃ xs ys,hs=xs++x::ys∧Tiles order i x xs∧Tiles order (x+2^order x) n ys := by
  have ⟨xs,ys,hs'⟩ := List.append_of_mem hx
  subst hs'
  have ⟨m,h1,hm,h2⟩ := tiles_append.mp h
  subst hm
  exact ⟨xs,ys,rfl,h1,h2⟩

/-- Every position lies in a block. -/
theorem Tiles.cover (h : Tiles order i n hs) {p : ℕ} (hi : i≤p) (hn : p<n) :
    ∃ x∈hs,x≤p∧p< x+2^order x := by
  induction hs generalizing i with
  | nil =>
    have hin : i=n := h
    omega
  | cons x xs ih =>
    have ⟨hx,hrest⟩ := h
    subst hx
    by_cases hp : p< x+2^order x
    · exact ⟨x,List.mem_cons_self,hi,hp⟩
    · have ⟨y,hy,hb⟩ := ih hrest (not_lt.mp hp)
      exact ⟨y,List.mem_cons_of_mem _ hy,hb⟩

/-- Two blocks do not overlap. -/
theorem Tiles.apart (h : Tiles order i n hs) {x y : ℕ} (hx : x∈hs) (hy : y∈hs) (hlt : x<y) :
    x+2^order x≤y := by
  have ⟨xs,ys,he,h1,h2⟩ := h.at hx
  subst he
  rcases List.mem_append.mp hy with hy|hy
  · exact absurd (h1.lt hy) (not_lt.mpr hlt.le)
  · rcases List.mem_cons.mp hy with rfl|hy
    · omega
    · exact (h2.bounds hy).1

/-- A block is followed by another one, or ends the tiling. -/
theorem Tiles.next (h : Tiles order i n hs) (hx : x∈hs) :
    x+2^order x=n∨x+2^order x∈hs := by
  have ⟨xs,ys,he,_,h2⟩ := h.at hx
  cases ys with
  | nil => exact .inl h2
  | cons y ys =>
    refine .inr ?_
    rw [he,←h2.1]
    simp

/-- The blocks are determined by the orders. -/
theorem Tiles.unique {hs' : List ℕ} (h : Tiles order i n hs) (h' : Tiles order i n hs') :
    hs=hs' := by
  induction hs generalizing i hs' with
  | nil =>
    cases hs' with
    | nil => rfl
    | cons x xs =>
      have hle := h'.2.le
      have hp := Nat.two_pow_pos (order i)
      have hin : i=n := h
      omega
  | cons x xs ih =>
    have ⟨hx,hrest⟩ := h
    cases hs' with
    | nil =>
      have hle := hrest.le
      have hp := Nat.two_pow_pos (order i)
      have hin : i=n := h'
      omega
    | cons y ys =>
      have ⟨hy,hrest'⟩ := h'
      rw [hx,hy,ih hrest hrest']

/-- Two adjacent blocks of one order become one block. -/
theorem Tiles.merge (h : Tiles order i n hs) (hx : x∈hs) (hb : x+2^order x∈hs)
    (heq : order (x+2^order x)=order x) (hnew : order' x=order x+1)
    (same : ∀ y∈hs,y≠x → y≠x+2^order x → order' y=order y) :
    ∃ hs',Tiles order' i n hs'∧∀ y,y∈hs' ↔ y∈hs∧y≠x+2^order x := by
  have ⟨xs,ys,he,h1,h2⟩ := h.at hx
  have hp := Nat.two_pow_pos (order x)
  cases ys with
  | nil =>
    have hlt := h.lt hb
    have hn : x+2^order x=n := h2
    omega
  | cons z zs =>
    have ⟨hz,h3⟩ := h2
    subst hz
    rw [heq] at h3
    have hxs : ∀ y∈xs,y< x := fun y hy => h1.lt hy
    have hzs : ∀ y∈zs,x+2^order x+2^order x≤y := fun y hy => (h3.bounds hy).1
    refine ⟨xs++x::zs,tiles_append.mpr ⟨x,?_,rfl,?_⟩,?_⟩
    · refine h1.congr fun y hy => same y ?_ ?_ ?_
      · rw [he]
        exact List.mem_append_left _ hy
      · exact (hxs y hy).ne
      · have := hxs y hy
        omega
    · have hsum : x+2^order' x=x+2^order x+2^order x := by
        rw [hnew,pow_succ]
        ring
      rw [hsum]
      refine h3.congr fun y hy => same y ?_ ?_ ?_
      · rw [he]
        simp [hy]
      · have := hzs y hy
        omega
      · have := hzs y hy
        omega
    · intro y
      rw [he]
      simp only [List.mem_append,List.mem_cons]
      constructor
      · rintro (hy|rfl|hy)
        · have := hxs y hy
          exact ⟨.inl hy,by omega⟩
        · exact ⟨.inr (.inl rfl),by omega⟩
        · have := hzs y hy
          exact ⟨.inr (.inr (.inr hy)),by omega⟩
      · rintro ⟨hy|rfl|rfl|hy,hne⟩
        · exact .inl hy
        · exact .inr (.inl rfl)
        · exact absurd rfl hne
        · exact .inr (.inr hy)

/-- A block becomes two blocks of half its size. -/
theorem Tiles.split (h : Tiles order i n hs) {x k : ℕ} (hx : x∈hs) (hk : order x=k+1)
    (hnew : order' x=k) (hbud : order' (x+2^k)=k)
    (same : ∀ y∈hs,y≠x → order' y=order y) :
    ∃ hs',Tiles order' i n hs'∧∀ y,y∈hs' ↔ y∈hs∨y=x+2^k := by
  have ⟨xs,ys,he,h1,h2⟩ := h.at hx
  have hp := Nat.two_pow_pos k
  have hsum : x+2^order x=x+2^k+2^k := by
    rw [hk,pow_succ]
    ring
  rw [hsum] at h2
  refine ⟨xs++x::(x+2^k)::ys,tiles_append.mpr ⟨x,?_,rfl,?_⟩,?_⟩
  · refine h1.congr fun y hy => same y ?_ (h1.lt hy).ne
    rw [he]
    exact List.mem_append_left _ hy
  · rw [hnew]
    refine ⟨rfl,?_⟩
    rw [hbud]
    refine h2.congr fun y hy => same y ?_ ?_
    · rw [he]
      simp [hy]
    · have := (h2.bounds hy).1
      omega
  · intro y
    rw [he]
    simp only [List.mem_append,List.mem_cons]
    tauto

/-! ## Buddies -/

/-- The buddy of a block follows it, or precedes it. -/
theorem buddy_cases {k x : ℕ} (hx : 2^k∣x) :
    2^(k+1)∣x∧x^^^2^k=x+2^k∨2^(k+1)∣x^^^2^k∧(x^^^2^k)+2^k=x := by
  have ⟨q,hq⟩ := hx
  subst hq
  have hxor : 2^k*q^^^2^k=2^k*(q^^^1) := by
    have h := Nat.shiftLeft_xor_distrib (a := q) (b := 1) (i := k)
    simp only [Nat.shiftLeft_eq,one_mul] at h
    rw [mul_comm (2^k) q,mul_comm (2^k) (q^^^1)]
    exact h.symm
  rcases Nat.even_or_odd q with hq|hq
  · refine .inl ⟨?_,?_⟩
    · exact Nat.mul_dvd_mul_left _ hq.two_dvd
    · rw [hxor,Nat.xor_one_of_even hq,mul_add,mul_one]
  · refine .inr ⟨?_,?_⟩
    · rw [hxor,Nat.xor_one_of_odd hq,pow_succ]
      refine Nat.mul_dvd_mul_left _ ?_
      have ⟨m,hm⟩ := hq
      exact ⟨m,by omega⟩
    · have hpos : q-1+1=q := by
        have ⟨m,hm⟩ := hq
        omega
      rw [hxor,Nat.xor_one_of_odd hq]
      calc 2^k*(q-1)+2^k=2^k*(q-1+1) := by ring
        _=2^k*q := by rw [hpos]

theorem not_dvd_half {k : ℕ} : ¬2^(k+1)∣2^k := by
  intro h
  have := Nat.le_of_dvd (Nat.two_pow_pos k) h
  omega

/-- The buddy of the lower half of a block is its upper half. -/
theorem buddy_lower {k x : ℕ} (hx : 2^(k+1)∣x) : x^^^2^k=x+2^k := by
  rcases buddy_cases ((Nat.pow_dvd_pow 2 (Nat.le_succ k)).trans hx) with ⟨_,h⟩|⟨hd,h⟩
  · exact h
  · rw [←h] at hx
    exact absurd ((Nat.dvd_add_right hd).mp hx) not_dvd_half

/-- Two multiples that differ are a step apart. -/
theorem lt_of_dvd {m x y : ℕ} (hx : m∣x) (hy : m∣y) (hlt : x<y) : x+m≤y := by
  have hd : m∣y-x := Nat.dvd_sub hy hx
  have := Nat.le_of_dvd (by omega) hd
  omega

/-- Every block starts at a multiple of its size. -/
def Aligned (order : ℕ → ℕ) (hs : List ℕ) : Prop := ∀ x∈hs,2^order x∣x

/-- A buddy inside the tiling starts with a block that is not larger. -/
theorem Tiles.buddy (h : Tiles order 0 n hs) (ha : Aligned order hs) (hx : x∈hs)
    (hlt : x^^^2^order x< n) :
    x^^^2^order x∈hs∧order (x^^^2^order x)≤order x := by
  rcases buddy_cases (ha x hx) with ⟨hd,heq⟩|⟨hd,heq⟩
  · have hmem := (h.next hx).resolve_left (by omega)
    rw [heq]
    refine ⟨hmem,?_⟩
    by_contra hgt
    -- A larger block would start at a multiple of its size.
    have hdvd : 2^(order x+1)∣x+2^order x :=
      (Nat.pow_dvd_pow 2 (not_le.mp hgt)).trans (ha _ hmem)
    exact not_dvd_half ((Nat.dvd_add_right hd).mp hdvd)
  · have ⟨y,hy,hle,hcov⟩ := h.cover (Nat.zero_le _) hlt
    have hyx : y+2^order y≤x := h.apart hy hx (by omega)
    have hsmall : order y≤order x := by
      by_contra hgt
      have hdvd : 2^(order x+1)∣y+2^order y :=
        (Nat.pow_dvd_pow 2 (not_le.mp hgt)).trans (Nat.dvd_add (ha y hy) dvd_rfl)
      have hnext := lt_of_dvd hd hdvd hcov
      omega
    have hyd : 2^order y∣x^^^2^order x :=
      (Nat.pow_dvd_pow 2 (Nat.le_succ_of_le hsmall)).trans hd
    have hyeq : y=x^^^2^order x := by
      by_contra hne
      have := lt_of_dvd (ha y hy) hyd (lt_of_le_of_ne hle hne)
      omega
    rw [←hyeq]
    exact ⟨hy,hsmall⟩

/-- Where no block has a buddy of its own order, no buddy lies inside the tiling. -/
theorem Tiles.buddy_outside (h : Tiles order 0 n hs) (ha : Aligned order hs)
    (alone : ∀ x∈hs,∀ y∈hs,order y=order x → y≠x^^^2^order x) (k : ℕ) :
    ∀ x∈hs,order x=k → n< (x^^^2^k)+2^k := by
  induction k using Nat.strong_induction_on with
  | h k ih =>
    intro x hx hk
    by_contra hle
    have hp := Nat.two_pow_pos k
    have ⟨hb,hsmall⟩ := h.buddy ha hx (by rw [hk]; omega)
    rw [hk] at hb hsmall
    have hne : order (x^^^2^k)≠k := fun he => alone x hx _ hb (by rw [he,hk]) (by rw [hk])
    -- The buddy is smaller, and its own buddy lies next to it.
    have hlt : order (x^^^2^k)<k := lt_of_le_of_ne hsmall hne
    have hstart : 2^k∣x^^^2^k := by
      rcases buddy_cases (hk▸ha x hx) with ⟨hd,heq⟩|⟨hd,_⟩
      · rw [heq]
        exact Nat.dvd_add (hk▸ha x hx) dvd_rfl
      · exact (Nat.pow_dvd_pow 2 (Nat.le_succ k)).trans hd
    generalize hy : x^^^2^k=y at hb hsmall hlt hstart hle
    have hout := ih _ hlt y hb rfl
    have hdouble : 2^(order y+1)∣y := (Nat.pow_dvd_pow 2 hlt).trans hstart
    have hroom : 2^(order y+1)≤2^k := Nat.pow_le_pow_right (by decide) hlt
    rcases buddy_cases (ha y hb) with ⟨_,heq⟩|⟨hd,heq⟩
    · omega
    · have hsum : 2^(order y+1)∣(y^^^2^order y)+2^order y := by
        rw [heq]
        exact hdouble
      exact not_dvd_half ((Nat.dvd_add_right hd).mp hsum)

/-- The order of each block is then as large as the space after it allows. -/
theorem Tiles.order_eq (h : Tiles order 0 n hs) (ha : Aligned order hs)
    (alone : ∀ x∈hs,∀ y∈hs,order y=order x → y≠x^^^2^order x) (hx : x∈hs) :
    order x=Nat.log 2 (n-x) := by
  have hb := (h.bounds hx).2
  have hout := h.buddy_outside ha alone (order x) x hx rfl
  have hp := Nat.two_pow_pos (order x)
  refine ((Nat.log_eq_iff (.inr ⟨by decide,by omega⟩)).mpr ⟨by omega,?_⟩).symm
  rcases buddy_cases (ha x hx) with ⟨_,heq⟩|⟨_,heq⟩ <;> omega

/-- Two such tilings are the same. -/
theorem Tiles.eq_of_alone {hs' : List ℕ} (h : Tiles order 0 n hs) (ha : Aligned order hs)
    (alone : ∀ x∈hs,∀ y∈hs,order y=order x → y≠x^^^2^order x)
    (h' : Tiles order' 0 n hs') (ha' : Aligned order' hs')
    (alone' : ∀ x∈hs',∀ y∈hs',order' y=order' x → y≠x^^^2^order' x) :
    hs=hs'∧∀ x∈hs,order x=order' x := by
  have same : Tiles (fun x => Nat.log 2 (n-x)) 0 n hs :=
    h.congr fun x hx => (h.order_eq ha alone hx).symm
  have same' : Tiles (fun x => Nat.log 2 (n-x)) 0 n hs' :=
    h'.congr fun x hx => (h'.order_eq ha' alone' hx).symm
  have heq := same.unique same'
  subst heq
  exact ⟨rfl,fun x hx => (h.order_eq ha alone hx).trans (h'.order_eq ha' alone' hx).symm⟩

end ArdroneKernel.AlignedBlocks
