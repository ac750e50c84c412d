import ArdroneKernel.BchLinearSystem

/-!
# What the linear solver reads and returns

Every index that `solve_linear_system` uses for its rows, for its parameter
columns and for the solutions is inside its array, and the result is the
number of solutions or zero.
-/

namespace ArdroneKernel.BchSolver

open ArrayList BchInit BchDecode BchLinearSystem

/-- An access to an array. -/
structure Access where
  /-- The index, which the source computes with signs. -/
  index : ℤ
  /-- Size of the array. -/
  size : ℕ

/-- The access is inside the array. -/
def Access.Inside (a : Access) : Prop := 0≤a.index ∧ a.index<a.size

/-- Accesses in the elimination of column `c`: the rows from `p` on, and
`param[k]` when the column is defective. -/
def elimAccesses (m : ℕ) (st : ElimState) (c : ℕ) : List Access :=
  let p : ℤ := c-st.param.length
  ((List.range (m-p.toNat)).map fun (i : ℕ) => ⟨p+i,m⟩)++
    match (List.range' p.toNat (m-p.toNat)).find? (fun r => st.rows.getD r 0&&&((1<<<m)>>>c)≠0) with
    | some _ => []
    | none => [⟨st.param.length,m⟩]

/-- Accesses in the insertion of parameter rows from row `r-1` down. -/
def insertAccesses (m k : ℕ) (param : List ℕ) : ℕ → ℕ → List ℕ → List Access
  | 0,_,_ => []
  | r+1,p,rows =>
    ⟨r,m⟩::if m≤r+k ∧ rows.getD r 0≠0 then []
    else (if p≠0 then [⟨(p : ℤ)-1,m⟩] else [])++
      if p≠0 ∧ r=param.getD (p-1) 0 then insertAccesses m k param r (p-1) (rows.set r (1<<<(m-r)))
      else ⟨(r : ℤ)-p,m⟩::insertAccesses m k param r p (rows.set r (rows.getD (r-p) 0))

/-- Accesses for the solution with the parameters `p`. -/
def solutionAccesses (m nsol : ℕ) (param : List ℕ) (p : ℕ) : List Access :=
  ((List.range param.length).flatMap fun (c : ℕ) => [⟨c,m⟩,⟨param.getD c 0,m⟩])++
    ((List.range m).map fun (r : ℕ) => ⟨r,m⟩)++[⟨p,nsol⟩]

/-- All accesses of `solve_linear_system`. -/
def accesses (bch : BchControl) (rows : List ℕ) (nsol : ℕ) : List Access :=
  let m := bch.m
  let st := (List.range m).foldl (elimColumn m) ⟨rows,[]⟩
  let k := st.param.length
  ((List.range m).flatMap fun c => elimAccesses m ((List.range c).foldl (elimColumn m) ⟨rows,[]⟩) c)++
    (if 0<k then insertAccesses m k st.param m k st.rows else [])++
    match (if 0<k then insertParams m k st.param m k st.rows else some st.rows) with
    | none => []
    | some _ => if nsol≠1<<<k then [] else (List.range nsol).flatMap (solutionAccesses m nsol st.param)

theorem solveLinearSystem_zero (bch : BchControl) (rows : List ℕ) : solveLinearSystem bch rows 0=[] := by
  unfold solveLinearSystem
  dsimp only
  split
  · rfl
  · rw [if_pos]
    rw [Nat.shiftLeft_eq,Nat.one_mul]
    exact (Nat.two_pow_pos _).ne

theorem inside_nat {i n : ℕ} (h : i<n) : (⟨i,n⟩ : Access).Inside :=
  ⟨Int.natCast_nonneg i,Int.ofNat_lt.mpr h⟩

section Elimination

variable {m : ℕ} {param : List ℕ}

theorem elimAccesses_inside {R : List ℕ} {c : ℕ} {st : ElimState} (h : ElimInv R m c st) (hc : c< m) :
    ∀ a ∈ elimAccesses m st c, a.Inside := by
  have hk : st.param.length≤c := by
    rw [←rank_eq_length h.sorted h.below]
    exact rank_le _ _
  intro a ha
  unfold elimAccesses at ha
  dsimp only at ha
  rcases List.mem_append.mp ha with ha | ha
  · obtain ⟨i,hi,rfl⟩ := List.mem_map.mp ha
    have hi' := List.mem_range.mp hi
    constructor
    · change (0 : ℤ)≤(c : ℤ)-st.param.length+i
      omega
    · change (c : ℤ)-st.param.length+i<(m : ℤ)
      omega
  · split at ha
    · cases ha
    · rw [List.mem_singleton.mp ha]
      exact inside_nat (lt_of_le_of_lt hk hc)

/-- The rows that the insertion copies are above the row it writes. -/
theorem insertAccesses_inside (hs : param.Pairwise (·<·)) (hb : ∀ j ∈ param, j< m) (r : ℕ) (rows : List ℕ)
    (hr : r≤ m) : ∀ a ∈ insertAccesses m param.length param r (rank param r) rows, a.Inside := by
  induction r generalizing rows with
  | zero =>
    intro a ha
    cases ha
  | succ r ih =>
    have hsucc := rank_succ param r
    have hle := rank_le param r
    have hlen := rank_le_length hs (r+1)
    have hm : param.length≤ m := by
      rw [←rank_eq_length hs hb]
      exact rank_le _ _
    intro a ha
    rw [insertAccesses] at ha
    rcases List.mem_cons.mp ha with rfl | ha
    · exact inside_nat (by omega)
    · split at ha
      · cases ha
      · rcases List.mem_append.mp ha with ha | ha
        · split at ha
          · rw [List.mem_singleton.mp ha]
            constructor
            · change (0 : ℤ)≤(rank param (r+1) : ℤ)-1
              omega
            · change (rank param (r+1) : ℤ)-1<(m : ℤ)
              omega
          · cases ha
        · by_cases hmem : r ∈ param
          · rw [if_pos hmem] at hsucc
            have hg := getD_rank hs hmem
            have hp : rank param (r+1)-1=rank param r := by omega
            rw [if_pos ⟨by omega,by rw [hp,hg]⟩,hp] at ha
            exact ih _ (by omega) a ha
          · rw [if_neg hmem] at hsucc
            have hnot : ¬(rank param (r+1)≠0 ∧ r=param.getD (rank param (r+1)-1) 0) := by
              rintro ⟨h0,he⟩
              apply hmem
              rw [he,List.getD_eq_getElem _ _ (by omega)]
              exact List.getElem_mem _
            rw [if_neg hnot,hsucc,Nat.add_zero] at ha
            rcases List.mem_cons.mp ha with rfl | ha
            · constructor
              · change (0 : ℤ)≤(r : ℤ)-rank param r
                omega
              · change (r : ℤ)-rank param r<(m : ℤ)
                omega
            · exact ih _ (by omega) a ha

theorem solutionAccesses_inside (hs : param.Pairwise (·<·)) (hb : ∀ j ∈ param, j< m) {nsol p : ℕ}
    (hp : p<nsol) : ∀ a ∈ solutionAccesses m nsol param p, a.Inside := by
  have hm : param.length≤ m := by
    rw [←rank_eq_length hs hb]
    exact rank_le _ _
  intro a ha
  rcases List.mem_append.mp ha with ha | ha
  · rcases List.mem_append.mp ha with ha | ha
    · obtain ⟨c,hc,ha⟩ := List.mem_flatMap.mp ha
      have hc' := List.mem_range.mp hc
      rcases List.mem_cons.mp ha with rfl | ha
      · exact inside_nat (by omega)
      · rw [List.mem_singleton.mp ha,List.getD_eq_getElem _ _ hc']
        exact inside_nat (hb _ (List.getElem_mem _))
    · obtain ⟨r,hr,rfl⟩ := List.mem_map.mp ha
      exact inside_nat (List.mem_range.mp hr)
  · rw [List.mem_singleton.mp ha]
    exact inside_nat hp

end Elimination

theorem accesses_inside {bch : BchControl} {rows : List ℕ} (hlen : bch.m≤rows.length)
    (hrows : ∀ r<bch.m, row rows r<2^(bch.m+1)) (nsol : ℕ) : ∀ a ∈ accesses bch rows nsol, a.Inside := by
  have hel := elimination hlen hrows
  have hfull := hel bch.m (Nat.le_refl _)
  have hrank := rank_eq_length hfull.sorted hfull.below
  intro a ha
  unfold accesses at ha
  dsimp only at ha
  rcases List.mem_append.mp ha with ha | ha
  · rcases List.mem_append.mp ha with ha | ha
    · obtain ⟨c,hc,ha⟩ := List.mem_flatMap.mp ha
      have hc' := List.mem_range.mp hc
      exact elimAccesses_inside (hel c (by omega)) hc' a ha
    · split at ha
      · have hins := insertAccesses_inside hfull.sorted hfull.below bch.m
          ((List.range bch.m).foldl (elimColumn bch.m) ⟨rows,[]⟩).rows (Nat.le_refl _)
        rw [hrank] at hins
        exact hins a ha
      · cases ha
  · split at ha
    · cases ha
    · split at ha
      · cases ha
      · obtain ⟨p,hp,ha⟩ := List.mem_flatMap.mp ha
        exact solutionAccesses_inside hfull.sorted hfull.below (List.mem_range.mp hp) a ha

/-- The solver returns the number of solutions when it is the expected one,
and zero otherwise; it stores all of them, each once, and every access is
inside its array. A negative number is expected like zero, in vain. -/
theorem solver_exact {bch : BchControl} (hm : bch.m≤15) {rows : List ℕ} (hlen : rows.length=bch.m)
    (hrows : ∀ row ∈ rows, row<2^(bch.m+1)) (nsol : ℤ) :
    ((solveLinearSystem bch rows nsol.toNat).length : ℤ)=
        (if ((solutions rows bch.m).card : ℤ)=nsol then nsol else 0) ∧
      (((solutions rows bch.m).card : ℤ)=nsol → (solveLinearSystem bch rows nsol.toNat).Nodup ∧
        ∀ s, s ∈ solveLinearSystem bch rows nsol.toNat ↔ s ∈ solutions rows bch.m) ∧
      ∀ a ∈ accesses bch rows nsol.toNat, a.Inside := by
  have hsmall : ∀ r<bch.m, row rows r<2^(bch.m+1) :=
    fun r _ => forall_getD (P := fun x => x<2^(bch.m+1)) (Nat.two_pow_pos _) hrows r
  refine ⟨?_,?_,accesses_inside hlen.ge hsmall _⟩
  · by_cases hn : 0<nsol.toNat
    · obtain ⟨hyes,hno⟩ := solveLinearSystem_spec (by omega) hlen.ge hsmall hn
      split
      · next hc =>
        rw [(hyes (by omega)).2.1]
        omega
      · next hc =>
        rw [hno (by omega)]
        rfl
    · have hz : nsol.toNat=0 := by omega
      have hnil := solveLinearSystem_zero bch rows
      rw [hz,hnil]
      split
      · next hc =>
        change (0 : ℤ)=nsol
        omega
      · rfl
  · intro hc
    by_cases hn : 0<nsol.toNat
    · obtain ⟨hnd,-,hmem⟩ := (solveLinearSystem_spec (by omega) hlen.ge hsmall hn).1 (by omega)
      exact ⟨hnd,hmem⟩
    · have hz : nsol.toNat=0 := by omega
      have hnil := solveLinearSystem_zero bch rows
      have hempty : solutions rows bch.m=∅ := Finset.card_eq_zero.mp (by omega)
      rw [hz,hnil,hempty]
      exact ⟨List.nodup_nil,fun s => by simp⟩

/-- One equation in five unknowns that says that the first one is set. -/
theorem solver_exact_example :
    ((solveLinearSystem (allocBch (fun _ _ => 0) 5 1) [3,0,0,0,0] 16).length : ℤ)=
        (if ((solutions [3,0,0,0,0] 5).card : ℤ)=16 then 16 else 0) ∧
      ∀ a ∈ accesses (allocBch (fun _ _ => 0) 5 1) [3,0,0,0,0] 16, a.Inside :=
  have h := solver_exact (show (allocBch (fun _ _ => 0) 5 1).m≤15 by decide)
    (show [3,0,0,0,0].length=_ from rfl) (by decide) 16
  ⟨h.1,h.2.2⟩

end ArdroneKernel.BchSolver
