import ArdroneKernel.Ashmem
import Mathlib.Data.UInt
import Mathlib.Tactic.Abel

/-!
# The unpinned pages of ashmem areas

The ranges of an area lie one before the other, and together they are the
pages that are unpinned. The ranges that were not purged are those on the LRU
list, whose pages are counted. The pages of a range that was purged stay in
ranges marked so until they are pinned.
-/

namespace ArdroneKernel.Ashmem

open Execution Function

/-! ## Intervals -/

theorem has_iff (r : Range) (p : ℕ) : r.has p=true ↔ r.pgstart≤p∧p≤r.pgend := by
  simp [Range.has]

theorem before_iff (r : Range) (p : ℕ) : r.before p=true ↔ r.pgend<p := by
  simp [Range.before]

theorem subsumedBy_iff (r : Range) (a b : ℕ) :
    r.subsumedBy a b=true ↔ a≤r.pgstart∧r.pgend≤b := by
  simp [Range.subsumedBy]

theorem subsumes_iff (r : Range) (a b : ℕ) :
    r.subsumes a b=true ↔ r.pgstart≤a∧b≤r.pgend := by
  simp [Range.subsumes]

/-- The test for an overlap of two intervals. -/
theorem meets_iff {r : Range} {a b : ℕ} (hr : r.pgstart≤r.pgend) (hab : a≤b) :
    r.meets a b=true ↔ r.pgstart≤b∧a≤r.pgend := by
  unfold Range.meets
  rw [Bool.or_eq_true,Bool.or_eq_true,has_iff,has_iff,subsumedBy_iff]
  omega

/-! ## Lists -/

theorem listAddTail_last (new : ℕ) (l : List ℕ) : listAddTail new none l=l++[new] := by
  cases l <;> rfl

theorem listAddTail_before (new prev : ℕ) (xs ys : List ℕ) (h : prev∉xs) :
    listAddTail new (some prev) (xs++prev::ys)=xs++new::prev::ys := by
  induction xs with
  | nil =>
    exact if_pos rfl
  | cons x xs ih =>
    have hne : prev≠x := fun he => h (he▸List.mem_cons_self)
    have hmem : prev∉xs := fun hm => h (List.mem_cons_of_mem _ hm)
    rw [List.cons_append]
    unfold listAddTail
    rw [if_neg (Ne.symm hne),ih hmem]
    rfl

/-! ## The two kinds of lists -/

/-- The lists and the count agree with the ranges. -/
structure Inv (s : State) : Prop where
  owned : ∀ a,∀ r∈s.unpinned a,(s.range r).pgstart≤(s.range r).pgend∧(s.range r).asma=a
  descending : ∀ a,(s.unpinned a).Pairwise fun r r' => (s.range r').pgend<(s.range r).pgstart
  lruNodup : s.lru.Nodup
  lruExact : ∀ r,r∈s.lru ↔ r∈s.unpinned (s.range r).asma∧(s.range r).purged=false
  lruCount : s.lruCount=(s.lru.map fun r => (s.range r).size).sum

variable {s : State} {a r : ℕ}

theorem Inv.nodup (h : Inv s) (a : ℕ) : (s.unpinned a).Nodup := by
  refine List.Pairwise.imp_of_mem ?_ (h.descending a)
  intro x y hx _ hxy heq
  have := (h.owned a x hx).1
  rw [←heq] at hxy
  omega

/-- The ranges before one in the list have later pages, those after it earlier ones. -/
theorem Inv.at (h : Inv s) (hr : r∈s.unpinned a) : ∃ xs ys,s.unpinned a=xs++r::ys∧
    (∀ x∈xs,(s.range r).pgend<(s.range x).pgstart)∧
    ∀ y∈ys,(s.range y).pgend<(s.range r).pgstart := by
  have ⟨xs,ys,heq⟩ := List.append_of_mem hr
  have hd := h.descending a
  rw [heq,List.pairwise_append,List.pairwise_cons] at hd
  have ⟨_,⟨hys,_⟩,hxs⟩ := hd
  exact ⟨xs,ys,heq,fun x hx => hxs x hx r List.mem_cons_self,hys⟩

/-- Two ranges of an area have no page in common. -/
theorem Inv.disjoint (h : Inv s) {r' p : ℕ} (hr : r∈s.unpinned a) (hr' : r'∈s.unpinned a)
    (hp : (s.range r).has p=true) (hp' : (s.range r').has p=true) : r=r' := by
  rw [has_iff] at hp hp'
  have ⟨xs,ys,heq,hxs,hys⟩ := h.at hr
  rw [heq] at hr'
  rcases List.mem_append.mp hr' with hx|hx
  · have := hxs r' hx
    omega
  · rcases List.mem_cons.mp hx with hx|hx
    · exact hx.symm
    · have := hys r' hx
      omega

/-- A page lies in a range of an area whose mark meets a condition. -/
def Covered (s : State) (a : ℕ) (f : Bool → Prop) (p : ℕ) : Prop :=
  ∃ r∈s.unpinned a,(s.range r).has p=true∧f (s.range r).purged

/-- What an operation on one area does not change. -/
structure Only (a : ℕ) (s s' : State) : Prop where
  lists : ∀ b≠a,s'.unpinned b=s.unpinned b
  ranges : ∀ b≠a,∀ r∈s.unpinned b,s'.range r=s.range r

theorem Only.refl (a : ℕ) (s : State) : Only a s s := ⟨fun _ _ => rfl,fun _ _ _ _ => rfl⟩

theorem Only.trans {s' s'' : State} (h : Only a s s') (h' : Only a s' s'') : Only a s s'' := by
  refine ⟨fun b hb => (h'.lists b hb).trans (h.lists b hb),fun b hb r hr => ?_⟩
  refine (h'.ranges b hb r ?_).trans (h.ranges b hb r hr)
  rw [h.lists b hb]
  exact hr

theorem Only.covered {s' : State} (h : Only a s s') {b : ℕ} (hb : b≠a) (f : Bool → Prop)
    (p : ℕ) : Covered s' b f p ↔ Covered s b f p := by
  unfold Covered
  rw [h.lists b hb]
  refine exists_congr fun r => and_congr_right fun hr => ?_
  rw [h.ranges b hb r hr]

/-! ## Deleting a range -/

theorem onLru_iff (r : Range) : r.onLru=true ↔ r.purged=false := by
  unfold Range.onLru
  cases r.purged <;> decide

/-- The pages of a range that leaves the LRU list are no longer counted. -/
theorem Inv.lruCount_erase (h : Inv s) (hr : r∈s.lru) :
    s.lruCount-(s.range r).size=((s.lru.erase r).map fun x => (s.range x).size).sum := by
  rw [h.lruCount,←List.sum_map_erase (fun x => (s.range x).size) hr,add_sub_cancel_left]

theorem rangeDel_range (s : State) (r : ℕ) : (rangeDel s r).range=s.range := by
  unfold rangeDel lruDel
  dsimp only
  split <;> rfl

theorem rangeDel_unpinned (s : State) (r : ℕ) :
    (rangeDel s r).unpinned=update s.unpinned (s.range r).asma
      ((s.unpinned (s.range r).asma).erase r) := by
  unfold rangeDel lruDel
  dsimp only
  split <;> rfl

theorem fresh_rangeDel {addr : ℕ} (h : Fresh s addr) (r : ℕ) : Fresh (rangeDel s r) addr := by
  intro b hmem
  rw [rangeDel_unpinned] at hmem
  by_cases hb : b=(s.range r).asma
  · rw [hb,update_self] at hmem
    exact h _ (List.mem_of_mem_erase hmem)
  · rw [update_of_ne hb] at hmem
    exact h b hmem

/-- Deleting a range keeps the lists, and takes away its pages. -/
theorem rangeDel_spec (h : Inv s) (hr : r∈s.unpinned a) :
    Inv (rangeDel s r)∧Only a s (rangeDel s r)∧
      (rangeDel s r).unpinned a=(s.unpinned a).erase r∧
      ∀ f p,Covered (rangeDel s r) a f p ↔ Covered s a f p∧(s.range r).has p=false := by
  have hasma := (h.owned a r hr).2
  have hself : (rangeDel s r).unpinned a=(s.unpinned a).erase r := by
    rw [rangeDel_unpinned,hasma,update_self]
  have hother : ∀ b≠a,(rangeDel s r).unpinned b=s.unpinned b := by
    intro b hb
    rw [rangeDel_unpinned,hasma,update_of_ne hb]
  have hsub : ∀ b,((rangeDel s r).unpinned b).Sublist (s.unpinned b) := by
    intro b
    by_cases hb : b=a
    · rw [hb,hself]
      exact List.erase_sublist
    · rw [hother b hb]
  have hrange := rangeDel_range s r
  have hmem : ∀ b x,x∈(rangeDel s r).unpinned b ↔ x∈s.unpinned b∧x≠r := by
    intro b x
    by_cases hb : b=a
    · rw [hb,hself,(h.nodup a).mem_erase_iff]
      exact and_comm
    · rw [hother b hb]
      refine ⟨fun hx => ⟨hx,fun he => ?_⟩,fun hx => hx.1⟩
      rw [he] at hx
      exact hb ((h.owned b r hx).2.symm.trans hasma)
  refine ⟨⟨?_,?_,?_,?_,?_⟩,⟨hother,fun b _ x _ => congrFun hrange x⟩,hself,?_⟩
  · intro b x hx
    rw [hrange]
    exact h.owned b x ((hsub b).subset hx)
  · intro b
    rw [hrange]
    exact (h.descending b).sublist (hsub b)
  · unfold rangeDel lruDel
    dsimp only
    split
    · exact h.lruNodup.erase r
    · exact h.lruNodup
  · intro x
    rw [hrange,hmem,and_right_comm,←h.lruExact]
    unfold rangeDel lruDel
    dsimp only
    split
    · rw [h.lruNodup.mem_erase_iff,and_comm]
    · next hon =>
      refine ⟨fun hx => ⟨hx,fun he => ?_⟩,fun hx => hx.1⟩
      rw [he,h.lruExact,←onLru_iff] at hx
      exact hon hx.2
  · unfold rangeDel lruDel
    dsimp only
    split
    · next hon =>
      refine h.lruCount_erase ((h.lruExact r).mpr ⟨?_,(onLru_iff _).mp hon⟩)
      rw [hasma]
      exact hr
    · exact h.lruCount
  · intro f p
    unfold Covered
    rw [hrange]
    constructor
    · intro ⟨x,hx,hp,hf⟩
      have ⟨hx,hne⟩ := (hmem a x).mp hx
      refine ⟨⟨x,hx,hp,hf⟩,?_⟩
      rw [←Bool.not_eq_true]
      exact fun hp' => hne (h.disjoint hx hr hp hp')
    · intro ⟨⟨x,hx,hp,hf⟩,hnot⟩
      refine ⟨x,(hmem a x).mpr ⟨hx,fun he => ?_⟩,hp,hf⟩
      rw [he,hnot] at hp
      cases hp

/-! ## Changing the pages of a range -/

section

variable (s : State) (r pgstart pgend : ℕ)

theorem rangeShrink_range : (rangeShrink s r pgstart pgend).range=
    update s.range r { s.range r with pgstart := pgstart, pgend := pgend } := by
  unfold rangeShrink
  dsimp only
  split <;> rfl

@[simp] theorem rangeShrink_unpinned : (rangeShrink s r pgstart pgend).unpinned=s.unpinned := by
  unfold rangeShrink
  dsimp only
  split <;> rfl

@[simp] theorem rangeShrink_lru : (rangeShrink s r pgstart pgend).lru=s.lru := by
  unfold rangeShrink
  dsimp only
  split <;> rfl

theorem rangeShrink_lruCount : (rangeShrink s r pgstart pgend).lruCount=
    if (s.range r).onLru then
      s.lruCount-((s.range r).size-({ s.range r with pgstart := pgstart, pgend := pgend }).size)
    else s.lruCount := by
  unfold rangeShrink
  simp only [update_self]
  have hon : ({ s.range r with pgstart := pgstart, pgend := pgend } : Range).onLru=
    (s.range r).onLru := rfl
  rw [hon]
  split <;> rfl

end

/-- Where a range on the LRU list changes its size, the count changes as much. -/
theorem Inv.lruCount_update (h : Inv s) (hr : r∈s.lru) (x : Range) :
    s.lruCount-((s.range r).size-x.size)=
      (s.lru.map fun y => (update s.range r x y).size).sum := by
  have hrest : ((s.lru.erase r).map fun y => (update s.range r x y).size)=
      (s.lru.erase r).map fun y => (s.range y).size := by
    refine List.map_congr_left fun y hy => ?_
    rw [update_of_ne (h.lruNodup.mem_erase_iff.mp hy).1]
  rw [←List.sum_map_erase (fun y => (update s.range r x y).size) hr,hrest,
    ←h.lruCount_erase hr,update_self]
  abel

/-- Where a range loses pages, the lists stay as they are. -/
theorem rangeShrink_spec (h : Inv s) (hr : r∈s.unpinned a) (pgstart pgend : ℕ)
    (hstart : (s.range r).pgstart≤pgstart) (hle : pgstart≤pgend)
    (hend : pgend≤(s.range r).pgend) :
    Inv (rangeShrink s r pgstart pgend)∧Only a s (rangeShrink s r pgstart pgend)∧
      ∀ f p,Covered (rangeShrink s r pgstart pgend) a f p ↔
        Covered s a f p∧((s.range r).has p=true → pgstart≤p∧p≤pgend) := by
  have hasma := (h.owned a r hr).2
  have hrange := rangeShrink_range s r pgstart pgend
  have hself : (rangeShrink s r pgstart pgend).range r=
      { s.range r with pgstart := pgstart, pgend := pgend } := by
    rw [hrange,update_self]
  have hother : ∀ x,x≠r → (rangeShrink s r pgstart pgend).range x=s.range x := by
    intro x hx
    rw [hrange,update_of_ne hx]
  have hkeep : ∀ x,((rangeShrink s r pgstart pgend).range x).asma=(s.range x).asma∧
      ((rangeShrink s r pgstart pgend).range x).purged=(s.range x).purged∧
      (s.range x).pgstart≤((rangeShrink s r pgstart pgend).range x).pgstart∧
      ((rangeShrink s r pgstart pgend).range x).pgend≤(s.range x).pgend := by
    intro x
    by_cases hx : x=r
    · rw [hx,hself]
      exact ⟨rfl,rfl,hstart,hend⟩
    · rw [hother x hx]
      exact ⟨rfl,rfl,le_rfl,le_rfl⟩
  refine ⟨⟨?_,?_,?_,?_,?_⟩,⟨fun b _ => by rw [rangeShrink_unpinned],fun b hb x hx => ?_⟩,?_⟩
  · intro b x hx
    rw [rangeShrink_unpinned] at hx
    have ho := h.owned b x hx
    rw [(hkeep x).1]
    refine ⟨?_,ho.2⟩
    by_cases hxr : x=r
    · rw [hxr,hself]
      exact hle
    · rw [hother x hxr]
      exact ho.1
  · intro b
    rw [rangeShrink_unpinned]
    refine (h.descending b).imp fun {x y} hxy => ?_
    have := (hkeep x).2.2.1
    have := (hkeep y).2.2.2
    omega
  · rw [rangeShrink_lru]
    exact h.lruNodup
  · intro x
    rw [rangeShrink_lru,rangeShrink_unpinned,(hkeep x).1,(hkeep x).2.1]
    exact h.lruExact x
  · rw [rangeShrink_lru,hrange]
    rw [rangeShrink_lruCount]
    by_cases hon : (s.range r).purged=false
    · have hmem : r∈s.lru := (h.lruExact r).mpr ⟨by rw [hasma]; exact hr,hon⟩
      rw [if_pos ((onLru_iff _).mpr hon)]
      exact h.lruCount_update hmem _
    · rw [if_neg fun hon' => hon ((onLru_iff _).mp hon')]
      refine h.lruCount.trans (congrArg List.sum (List.map_congr_left fun x hx => ?_))
      have hx := (h.lruExact x).mp hx
      have hxr : x≠r := by
        intro he
        rw [he] at hx
        exact hon hx.2
      rw [update_of_ne hxr]
  · refine hother x fun he => hb ?_
    rw [he] at hx
    exact (h.owned b r hx).2.symm.trans hasma
  · intro f p
    unfold Covered
    rw [rangeShrink_unpinned]
    constructor
    · intro ⟨x,hx,hp,hf⟩
      rw [(hkeep x).2.1] at hf
      rw [has_iff] at hp
      have hk := hkeep x
      have hp' : (s.range x).has p=true := (has_iff _ _).mpr ⟨by omega,by omega⟩
      refine ⟨⟨x,hx,hp',hf⟩,fun hpr => ?_⟩
      have hxr := h.disjoint hx hr hp' hpr
      rw [hxr,hself] at hp
      exact hp
    · intro ⟨⟨x,hx,hp,hf⟩,hin⟩
      refine ⟨x,hx,?_,by rw [(hkeep x).2.1]; exact hf⟩
      by_cases hxr : x=r
      · rw [hxr,hself,has_iff]
        rw [hxr] at hp
        exact hin hp
      · rw [hother x hxr]
        exact hp

/-! ## A new range -/

section

variable (s : State) (addr asma : ℕ) (prev : Option ℕ) (purged : Bool) (pgstart pgend : ℕ)

theorem rangeAlloc_range : (rangeAlloc s addr asma prev purged pgstart pgend).range=
    update s.range addr ⟨asma,pgstart,pgend,purged⟩ := by
  unfold rangeAlloc lruAdd
  dsimp only
  split <;> rfl

theorem rangeAlloc_unpinned : (rangeAlloc s addr asma prev purged pgstart pgend).unpinned=
    update s.unpinned asma (listAddTail addr prev (s.unpinned asma)) := by
  unfold rangeAlloc lruAdd
  dsimp only
  split <;> rfl

theorem rangeAlloc_lru : (rangeAlloc s addr asma prev purged pgstart pgend).lru=
    if purged then s.lru else s.lru++[addr] := by
  unfold rangeAlloc lruAdd Range.onLru
  cases purged
  · exact listAddTail_last addr s.lru
  · rfl

theorem rangeAlloc_lruCount : (rangeAlloc s addr asma prev purged pgstart pgend).lruCount=
    if purged then s.lruCount
    else s.lruCount+(⟨asma,pgstart,pgend,purged⟩ : Range).size := by
  unfold rangeAlloc lruAdd Range.onLru
  dsimp only
  cases purged
  · rw [update_self]
    rfl
  · rfl

end

/-- A new range is put where its pages belong. -/
theorem rangeAlloc_spec (h : Inv s) {addr pgstart pgend : ℕ} (prev : Option ℕ) {xs ys : List ℕ}
    (purged : Bool) (fresh : Fresh s addr) (hle : pgstart≤pgend)
    (hlist : s.unpinned a=xs++ys) (hprev : prev=ys.head?)
    (hxs : ∀ x∈xs,pgend<(s.range x).pgstart) (hys : ∀ y∈ys,(s.range y).pgend<pgstart) :
    Inv (rangeAlloc s addr a prev purged pgstart pgend)∧
      Only a s (rangeAlloc s addr a prev purged pgstart pgend)∧
      ∀ f p,Covered (rangeAlloc s addr a prev purged pgstart pgend) a f p ↔
        Covered s a f p∨(pgstart≤p∧p≤pgend)∧f purged := by
  have hnew : listAddTail addr prev (s.unpinned a)=xs++addr::ys := by
    rw [hlist,hprev]
    cases ys with
    | nil => rw [List.append_nil,List.head?_nil,listAddTail_last]
    | cons y ys =>
      refine listAddTail_before addr y xs ys fun hy => ?_
      have h1 := hxs y hy
      have h2 := hys y List.mem_cons_self
      have h3 := (h.owned a y (by rw [hlist]; exact List.mem_append_left _ hy)).1
      omega
  have hself : (rangeAlloc s addr a prev purged pgstart pgend).range addr=
      ⟨a,pgstart,pgend,purged⟩ := by
    rw [rangeAlloc_range,update_self]
  have hother : ∀ x,x≠addr →
      (rangeAlloc s addr a prev purged pgstart pgend).range x=s.range x := by
    intro x hx
    rw [rangeAlloc_range,update_of_ne hx]
  have hlistA : (rangeAlloc s addr a prev purged pgstart pgend).unpinned a=xs++addr::ys := by
    rw [rangeAlloc_unpinned,update_self,hnew]
  have hlistB : ∀ b≠a,
      (rangeAlloc s addr a prev purged pgstart pgend).unpinned b=s.unpinned b := by
    intro b hb
    rw [rangeAlloc_unpinned,update_of_ne hb]
  have hne : ∀ b,∀ x∈s.unpinned b,x≠addr := fun b x hx he => fresh b (he▸hx)
  have hmem : ∀ x,x∈xs++addr::ys ↔ x∈s.unpinned a∨x=addr := by
    intro x
    rw [hlist]
    simp only [List.mem_append,List.mem_cons]
    tauto
  have hlru : addr∉s.lru := fun hm => fresh _ ((h.lruExact addr).mp hm).1
  refine ⟨⟨?_,?_,?_,?_,?_⟩,⟨hlistB,fun b _ x hx => hother x (hne b x hx)⟩,?_⟩
  · intro b x hx
    by_cases hb : b=a
    · rw [hb,hlistA,hmem] at hx
      rcases hx with hx|hx
      · rw [hother x (hne a x hx),hb]
        exact h.owned a x hx
      · rw [hx,hself]
        exact ⟨hle,hb.symm⟩
    · rw [hlistB b hb] at hx
      rw [hother x (hne b x hx)]
      exact h.owned b x hx
  · intro b
    by_cases hb : b=a
    · rw [hb,hlistA]
      have hd := h.descending a
      rw [hlist,List.pairwise_append] at hd
      have ⟨hdx,hdy,hdxy⟩ := hd
      have hox : ∀ x∈xs,
          (rangeAlloc s addr a prev purged pgstart pgend).range x=s.range x := fun x hx =>
        hother x (hne a x (by rw [hlist]; exact List.mem_append_left _ hx))
      have hoy : ∀ y∈ys,
          (rangeAlloc s addr a prev purged pgstart pgend).range y=s.range y := fun y hy =>
        hother y (hne a y (by rw [hlist]; exact List.mem_append_right _ hy))
      refine List.pairwise_append.mpr ⟨?_,List.pairwise_cons.mpr ⟨?_,?_⟩,?_⟩
      · refine hdx.imp_of_mem fun {x y} hx hy hxy => ?_
        rw [hox x hx,hox y hy]
        exact hxy
      · intro y hy
        rw [hself,hoy y hy]
        exact hys y hy
      · refine hdy.imp_of_mem fun {x y} hx hy hxy => ?_
        rw [hoy x hx,hoy y hy]
        exact hxy
      · intro x hx y hy
        rw [hox x hx]
        rcases List.mem_cons.mp hy with hy|hy
        · rw [hy,hself]
          exact hxs x hx
        · rw [hoy y hy]
          exact hdxy x hx y hy
    · rw [hlistB b hb]
      refine (h.descending b).imp_of_mem fun {x y} hx hy hxy => ?_
      rw [hother x (hne b x hx),hother y (hne b y hy)]
      exact hxy
  · rw [rangeAlloc_lru]
    split
    · exact h.lruNodup
    · rw [←List.concat_eq_append]
      exact h.lruNodup.concat hlru
  · intro x
    rw [rangeAlloc_lru]
    by_cases hx : x=addr
    · rw [hx,hself,hlistA,hmem]
      cases purged <;> simp [hlru]
    · rw [hother x hx]
      have hl : x∈(rangeAlloc s addr a prev purged pgstart pgend).unpinned (s.range x).asma ↔
          x∈s.unpinned (s.range x).asma := by
        by_cases hb : (s.range x).asma=a
        · rw [hb,hlistA,hmem,or_iff_left hx]
        · rw [hlistB _ hb]
      rw [hl,←h.lruExact]
      cases purged <;> simp [hx]
  · rw [rangeAlloc_lru,rangeAlloc_lruCount]
    have hsum : (s.lru.map fun x =>
        ((rangeAlloc s addr a prev purged pgstart pgend).range x).size)=
        s.lru.map fun x => (s.range x).size := by
      refine List.map_congr_left fun x hx => ?_
      rw [hother x fun he => hlru (he▸hx)]
    split
    · rw [hsum]
      exact h.lruCount
    · rw [List.map_append,List.sum_append,hsum,←h.lruCount,List.map_singleton,List.sum_singleton,
        hself]
  · intro f p
    unfold Covered
    rw [hlistA]
    constructor
    · intro ⟨x,hx,hp,hf⟩
      rcases (hmem x).mp hx with hx|hx
      · rw [hother x (hne a x hx)] at hp hf
        exact .inl ⟨x,hx,hp,hf⟩
      · rw [hx,hself] at hp hf
        exact .inr ⟨(has_iff _ _).mp hp,hf⟩
    · rintro (⟨x,hx,hp,hf⟩|⟨hp,hf⟩)
      · refine ⟨x,(hmem x).mpr (.inl hx),?_,?_⟩
        · rw [hother x (hne a x hx)]
          exact hp
        · rw [hother x (hne a x hx)]
          exact hf
      · refine ⟨addr,(hmem addr).mpr (.inr rfl),?_,?_⟩
        · rw [hself]
          exact (has_iff _ _).mpr hp
        · rw [hself]
          exact hf

/-! ## Pinning -/

/-- What pinning an interval has to do to an area. -/
structure Pinned (a pgstart pgend : ℕ) (s : State) (ret : Bool) (res : Bool×State) : Prop where
  inv : Inv res.2
  only : Only a s res.2
  covered : ∀ f p,Covered res.2 a f p ↔ Covered s a f p∧¬(pgstart≤p∧p≤pgend)
  purged : (ret=true∨∃ p,pgstart≤p∧p≤pgend∧Covered s a (·=true) p) → res.1=true

variable {addr pgstart pgend : ℕ}

/-- No range of the area has a page of the interval. -/
theorem pinned_of_clear (h : Inv s) (ret : Bool)
    (clear : ∀ x∈s.unpinned a,∀ p,pgstart≤p → p≤pgend → (s.range x).has p=false) :
    Pinned a pgstart pgend s ret (ret,s) := by
  refine ⟨h,Only.refl a s,fun f p => ⟨fun hc => ⟨hc,?_⟩,fun hc => hc.1⟩,?_⟩
  · intro ⟨h1,h2⟩
    have ⟨x,hx,hp,_⟩ := hc
    rw [clear x hx p h1 h2] at hp
    cases hp
  · rintro (hret|⟨p,h1,h2,x,hx,hp,_⟩)
    · exact hret
    · rw [clear x hx p h1 h2] at hp
      cases hp

/-- The mark of a page is that of its range. -/
theorem Inv.mark_of_has (h : Inv s) (hr : r∈s.unpinned a) {p : ℕ}
    (hp : (s.range r).has p=true) {f : Bool → Prop} (hc : Covered s a f p) :
    f (s.range r).purged := by
  have ⟨x,hx,hp',hf⟩ := hc
  rw [←h.disjoint hx hr hp' hp]
  exact hf

/-- The interval takes pages from one range, and then from those after it. -/
theorem Pinned.step (h : Inv s) (hr : r∈s.unpinned a) {ret : Bool} {s1 : State}
    {res : Bool×State} (h1 : Pinned a pgstart pgend s1 (ret||(s.range r).purged) res)
    (only : Only a s s1) (new : ℕ → Prop)
    (hnew : ∀ p,(s.range r).has p=true → (new p ↔ ¬(pgstart≤p∧p≤pgend)))
    (covered : ∀ f p,Covered s1 a f p ↔ Covered s a f p∧((s.range r).has p=true → new p)) :
    Pinned a pgstart pgend s ret res := by
  refine ⟨h1.inv,only.trans h1.only,fun f p => ?_,fun hp => h1.purged ?_⟩
  · rw [h1.covered,covered]
    have := hnew p
    tauto
  · rcases hp with hret|⟨p,ha,hb,hc⟩
    · rw [hret]
      exact .inl rfl
    · by_cases hp : (s.range r).has p=true
      · rw [h.mark_of_has hr hp hc,Bool.or_true]
        exact .inl rfl
      · exact .inr ⟨p,ha,hb,(covered _ p).mpr ⟨hc,fun hp' => absurd hp' hp⟩⟩

/-- A hole: the second half is allocated before the first one is adjusted, to the same effect. -/
theorem rangeAlloc_rangeShrink (s : State) (prev : Option ℕ) (purged : Bool) (x y u v : ℕ)
    (hne : addr≠r) :
    rangeShrink (rangeAlloc s addr a prev purged x y) r u v=
      rangeAlloc (rangeShrink s r u v) addr a prev purged x y := by
  have hrange : (rangeAlloc s addr a prev purged x y).range r=s.range r := by
    rw [rangeAlloc_range,update_of_ne (Ne.symm hne)]
  have hext : ∀ t t' : State,t.range=t'.range → t.unpinned=t'.unpinned → t.lru=t'.lru →
      t.lruCount=t'.lruCount → t=t' := by
    intro t t' h1 h2 h3 h4
    cases t
    cases t'
    cases h1
    cases h2
    cases h3
    cases h4
    rfl
  apply hext
  · rw [rangeShrink_range,hrange,rangeAlloc_range,rangeAlloc_range,rangeShrink_range,
      update_comm hne]
  · rw [rangeShrink_unpinned,rangeAlloc_unpinned,rangeAlloc_unpinned,rangeShrink_unpinned]
  · rw [rangeShrink_lru,rangeAlloc_lru,rangeAlloc_lru,rangeShrink_lru]
  · rw [rangeShrink_lruCount,rangeAlloc_lruCount,rangeAlloc_lruCount,rangeShrink_lruCount,hrange]
    split <;> split <;> first | rfl | abel

/-- The interval punches a hole into a range. -/
theorem pinned_hole (h : Inv s) (fresh : Fresh s addr) {done rs : List ℕ}
    (hlist : s.unpinned a=done++r::rs) (hle : pgstart≤pgend)
    (h1 : (s.range r).pgstart<pgstart) (h2 : pgend<(s.range r).pgend) (ret : Bool) :
    Pinned a pgstart pgend s ret (ret||(s.range r).purged,
      rangeShrink (rangeAlloc s addr a (some r) (s.range r).purged (pgend+1) (s.range r).pgend)
        r (s.range r).pgstart (pgstart-1)) := by
  have hr : r∈s.unpinned a := by
    rw [hlist]
    simp
  have hd := h.descending a
  rw [hlist,List.pairwise_append,List.pairwise_cons] at hd
  have hdr : ∀ x∈done,x≠r := by
    rintro x hx rfl
    have := hd.2.2 x hx x List.mem_cons_self
    omega
  have haddr : addr≠r := fun he => fresh a (he▸hr)
  have ⟨hi1,only1,covered1⟩ := rangeShrink_spec h hr
    (s.range r).pgstart (pgstart-1) le_rfl (by omega) (by omega)
  have hrange := rangeShrink_range s r (s.range r).pgstart (pgstart-1)
  have hlist1 : (rangeShrink s r (s.range r).pgstart (pgstart-1)).unpinned a=done++r::rs := by
    rw [rangeShrink_unpinned,hlist]
  have fresh1 : Fresh (rangeShrink s r (s.range r).pgstart (pgstart-1)) addr := by
    intro b
    rw [rangeShrink_unpinned]
    exact fresh b
  have hbefore : ∀ x∈done,(s.range r).pgend<
      ((rangeShrink s r (s.range r).pgstart (pgstart-1)).range x).pgstart := by
    intro x hx
    rw [hrange,update_of_ne (hdr x hx)]
    exact hd.2.2 x hx r List.mem_cons_self
  have hbehind : ∀ y∈r::rs,
      ((rangeShrink s r (s.range r).pgstart (pgstart-1)).range y).pgend<pgend+1 := by
    intro y hy
    by_cases hyr : y=r
    · rw [hyr,hrange,update_self]
      dsimp only
      omega
    · rw [hrange,update_of_ne hyr]
      have := hd.2.1.1 y ((List.mem_cons.mp hy).resolve_left hyr)
      omega
  rw [rangeAlloc_rangeShrink s (some r) (s.range r).purged (pgend+1) (s.range r).pgend
    (s.range r).pgstart (pgstart-1) haddr]
  have ⟨hi2,only2,covered2⟩ := rangeAlloc_spec hi1 (some r) (s.range r).purged fresh1
    (show pgend+1≤(s.range r).pgend by omega) hlist1 rfl hbefore hbehind
  refine ⟨hi2,only1.trans only2,fun f p => ?_,fun hp => ?_⟩
  · rw [covered2,covered1]
    by_cases hp : (s.range r).has p=true
    · have hmark : Covered s a f p ↔ f (s.range r).purged :=
        ⟨fun hc => h.mark_of_has hr hp hc,fun hf => ⟨r,hr,hp,hf⟩⟩
      have hp' := (has_iff _ _).mp hp
      have hin : ((s.range r).has p=true → (s.range r).pgstart≤p∧p≤pgstart-1) ↔ p<pgstart := by
        constructor
        · intro hh
          have := hh hp
          omega
        · intro _ _
          omega
      have hin' : pgend+1≤p∧p≤(s.range r).pgend ↔ pgend<p := by omega
      have hin'' : ¬(pgstart≤p∧p≤pgend) ↔ p<pgstart∨pgend<p := by omega
      rw [hmark,hin,hin',hin'',and_comm (a := pgend<p),←and_or_left]
    · have hout : ¬(pgend+1≤p∧p≤(s.range r).pgend)∧¬(pgstart≤p∧p≤pgend) := by
        rw [has_iff] at hp
        omega
      constructor
      · rintro (hc|hc)
        · exact ⟨hc.1,hout.2⟩
        · exact absurd hc.1 hout.1
      · intro hc
        exact .inl ⟨hc.1,fun hp' => absurd hp' hp⟩
  · rcases hp with hret|⟨p,hp1,hp2,hc⟩
    · rw [hret]
      rfl
    · have hp : (s.range r).has p=true := (has_iff _ _).mpr ⟨by omega,by omega⟩
      have hmark : (s.range r).purged=true := h.mark_of_has hr hp hc
      rw [hmark,Bool.or_true]

/-- A range has pages on both sides of an interval. -/
def Hole (s : State) (pgstart pgend r : ℕ) : Prop :=
  (s.range r).pgstart<pgstart∧pgend<(s.range r).pgend

/-- Pinning takes the pages of the interval from the ranges of the area. An
address is needed for a hole only. -/
theorem pinLoop_spec (hle : pgstart≤pgend) (rest : List ℕ) : ∀ (s : State) (done : List ℕ)
    (ret : Bool),Inv s → (∀ r∈rest,Hole s pgstart pgend r → Fresh s addr) →
    s.unpinned a=done++rest →
    (∀ x∈done,∀ p,pgstart≤p → p≤pgend → (s.range x).has p=false) →
    Pinned a pgstart pgend s ret (pinLoop addr a pgstart pgend rest ret s) := by
  induction rest with
  | nil =>
    intro s done ret h _ hlist hdone
    rw [List.append_nil] at hlist
    exact pinned_of_clear h ret (hlist▸hdone)
  | cons r rs ih =>
    intro s done ret h fresh hlist hdone
    have hr : r∈s.unpinned a := by
      rw [hlist]
      simp
    have hr0 := (h.owned a r hr).1
    have hd := h.descending a
    rw [hlist,List.pairwise_append,List.pairwise_cons] at hd
    have hafter : ∀ y∈rs,(s.range y).pgend<(s.range r).pgstart := hd.2.1.1
    have hnodup := h.nodup a
    rw [hlist] at hnodup
    have hrd : r∉done := fun hm => List.disjoint_of_nodup_append hnodup hm List.mem_cons_self
    have hrs : r∉rs := (List.nodup_cons.mp (List.Nodup.of_append_right hnodup)).1
    have hdr : ∀ x∈done,x≠r := by
      rintro x hx rfl
      exact hrd hx
    -- The range loses pages, and stays on the list.
    have shrink (u v : ℕ) (hu : (s.range r).pgstart≤u) (huv : u≤v) (hv : v≤(s.range r).pgend)
        (hnew : ∀ p,(s.range r).has p=true → (u≤p∧p≤v ↔ ¬(pgstart≤p∧p≤pgend))) :
        Pinned a pgstart pgend s ret
          (pinLoop addr a pgstart pgend rs (ret||(s.range r).purged) (rangeShrink s r u v)) := by
      have ⟨h1,only,covered⟩ := rangeShrink_spec h hr u v hu huv hv
      refine Pinned.step h hr (ih _ (done++[r]) _ h1 ?_ ?_ ?_) only _ hnew covered
      · intro x hx hole b
        have hxr : x≠r := fun he => hrs (he▸hx)
        unfold Hole at hole
        rw [rangeShrink_range,update_of_ne hxr] at hole
        rw [rangeShrink_unpinned]
        exact fresh x (List.mem_cons_of_mem _ hx) hole b
      · rw [rangeShrink_unpinned,hlist]
        simp
      · intro x hx p hp1 hp2
        rw [rangeShrink_range]
        rcases List.mem_append.mp hx with hx|hx
        · rw [update_of_ne (hdr x hx)]
          exact hdone x hx p hp1 hp2
        · rw [List.mem_singleton.mp hx,update_self,←Bool.not_eq_true,has_iff]
          intro hin
          exact (hnew p ((has_iff _ _).mpr ⟨hu.trans hin.1,hin.2.trans hv⟩)).mp hin ⟨hp1,hp2⟩
    unfold pinLoop
    by_cases hb : (s.range r).before pgstart=true
    · rw [if_pos hb]
      rw [before_iff] at hb
      refine pinned_of_clear h ret fun x hx p hp1 hp2 => ?_
      rw [hlist] at hx
      rcases List.mem_append.mp hx with hx|hx
      · exact hdone x hx p hp1 hp2
      rw [←Bool.not_eq_true,has_iff]
      rcases List.mem_cons.mp hx with hx|hx
      · rw [hx]
        omega
      · have := hafter x hx
        omega
    rw [if_neg hb]
    by_cases hm : (s.range r).meets pgstart pgend=true
    case neg =>
      rw [if_neg hm]
      rw [meets_iff hr0 hle] at hm
      refine ih s (done++[r]) ret h (fun x hx => fresh x (List.mem_cons_of_mem _ hx))
        (by rw [hlist]; simp) fun x hx p hp1 hp2 => ?_
      rcases List.mem_append.mp hx with hx|hx
      · exact hdone x hx p hp1 hp2
      · rw [List.mem_singleton.mp hx,←Bool.not_eq_true,has_iff]
        omega
    rw [if_pos hm]
    rw [meets_iff hr0 hle] at hm
    by_cases h1 : (s.range r).subsumedBy pgstart pgend=true
    · rw [if_pos h1]
      rw [subsumedBy_iff] at h1
      have ⟨hi,only,hl,covered⟩ := rangeDel_spec h hr
      have hl' : (rangeDel s r).unpinned a=done++rs := by
        rw [hl,hlist,List.erase_append_right _ hrd,List.erase_cons_head]
      refine Pinned.step h hr (ih _ done _ hi ?_ hl' ?_) only (fun _ => False) ?_ ?_
      · intro x hx hole
        unfold Hole at hole
        rw [rangeDel_range] at hole
        exact fresh_rangeDel (fresh x (List.mem_cons_of_mem _ hx) hole) r
      · rw [rangeDel_range]
        exact hdone
      · intro p hp
        rw [has_iff] at hp
        exact iff_of_false id fun hnot => hnot ⟨by omega,by omega⟩
      · intro f p
        rw [covered,←Bool.not_eq_true]
    rw [if_neg h1]
    rw [subsumedBy_iff] at h1
    by_cases h2 : (s.range r).pgstart≥pgstart
    · rw [if_pos h2]
      refine shrink _ _ (by omega) (by omega) le_rfl fun p hp => ?_
      rw [has_iff] at hp
      omega
    rw [if_neg h2]
    by_cases h3 : (s.range r).pgend≤pgend
    · rw [if_pos h3]
      refine shrink _ _ le_rfl (by omega) (by omega) fun p hp => ?_
      rw [has_iff] at hp
      omega
    rw [if_neg h3]
    have hole : Hole s pgstart pgend r := ⟨by omega,by omega⟩
    exact pinned_hole h (fresh r List.mem_cons_self hole) hlist hle hole.1 hole.2 ret

theorem ashmemPin_spec (h : Inv s) (fresh : Fresh s addr) (hle : pgstart≤pgend) :
    Pinned a pgstart pgend s false (ashmemPin s addr a pgstart pgend) :=
  pinLoop_spec hle _ s [] false h (fun _ _ _ => fresh) rfl fun _ hx => absurd hx List.not_mem_nil

/-! ## Unpinning -/

/-- What the loop over the ranges of an area finds. -/
def Scan.Finds (s : State) (pgstart pgend : ℕ) (l : List ℕ) : Scan → Prop
  | .subsumed => ∃ r∈l,(s.range r).pgstart≤pgstart∧pgend≤(s.range r).pgend
  | .merge r => r∈l∧(s.range r).pgstart≤pgend∧pgstart≤(s.range r).pgend
  | .insert prev => ∃ xs ys,l=xs++ys∧prev=ys.head?∧
      (∀ x∈xs,pgend<(s.range x).pgstart)∧∀ y∈ys,(s.range y).pgend<pgstart

theorem unpinScan_finds (hle : pgstart≤pgend) (l : List ℕ)
    (owned : ∀ r∈l,(s.range r).pgstart≤(s.range r).pgend)
    (hd : l.Pairwise fun r r' => (s.range r').pgend<(s.range r).pgstart) :
    (unpinScan s pgstart pgend l).Finds s pgstart pgend l := by
  induction l with
  | nil =>
    refine ⟨[],[],rfl,rfl,?_,?_⟩ <;> intro x hx <;> cases hx
  | cons r rs ih =>
    have ⟨hafter,hrs⟩ := List.pairwise_cons.mp hd
    have hr := owned r List.mem_cons_self
    unfold unpinScan
    by_cases hb : (s.range r).before pgstart=true
    · rw [if_pos hb]
      rw [before_iff] at hb
      refine ⟨[],r::rs,rfl,rfl,by simp,fun y hy => ?_⟩
      rcases List.mem_cons.mp hy with hy|hy
      · rw [hy]
        exact hb
      · have := hafter y hy
        omega
    rw [if_neg hb]
    by_cases hs : (s.range r).subsumes pgstart pgend=true
    · rw [if_pos hs]
      exact ⟨r,List.mem_cons_self,(subsumes_iff _ _ _).mp hs⟩
    rw [if_neg hs]
    by_cases hm : (s.range r).meets pgstart pgend=true
    · rw [if_pos hm]
      exact ⟨List.mem_cons_self,(meets_iff hr hle).mp hm⟩
    rw [if_neg hm]
    rw [before_iff] at hb
    rw [meets_iff hr hle] at hm
    have hi := ih (fun x hx => owned x (List.mem_cons_of_mem _ hx)) hrs
    generalize unpinScan s pgstart pgend rs=scan at hi ⊢
    cases scan with
    | subsumed =>
      have ⟨x,hx,hp⟩ := hi
      exact ⟨x,List.mem_cons_of_mem _ hx,hp⟩
    | merge x => exact ⟨List.mem_cons_of_mem _ hi.1,hi.2⟩
    | insert prev =>
      have ⟨xs,ys,heq,hprev,hxs,hys⟩ := hi
      refine ⟨r::xs,ys,by rw [heq]; rfl,hprev,fun x hx => ?_,hys⟩
      rcases List.mem_cons.mp hx with hx|hx
      · rw [hx]
        omega
      · exact hxs x hx

/-- What unpinning an interval has to do to an area. -/
structure Unpinned (a pgstart pgend : ℕ) (purged : Bool) (s s' : State) : Prop where
  inv : Inv s'
  only : Only a s s'
  covered : ∀ p,Covered s' a (fun _ => True) p ↔
    Covered s a (fun _ => True) p∨(pgstart≤p∧p≤pgend)
  purged : ∀ p,Covered s a (·=true) p∨(purged=true∧pgstart≤p∧p≤pgend) →
    Covered s' a (·=true) p

/-- A range that meets the request is deleted, and its pages become part of it. -/
theorem Unpinned.merge (h : Inv s) (hr : r∈s.unpinned a) {purged : Bool} {s' : State}
    (hmeets : (s.range r).pgstart≤pgend∧pgstart≤(s.range r).pgend)
    (h' : Unpinned a (min (s.range r).pgstart pgstart) (max (s.range r).pgend pgend)
      (purged||(s.range r).purged) (rangeDel s r) s') :
    Unpinned a pgstart pgend purged s s' := by
  have ⟨_,only,_,covered⟩ := rangeDel_spec h hr
  have hin : ∀ p,min (s.range r).pgstart pgstart≤p∧p≤ max (s.range r).pgend pgend ↔
      (s.range r).has p=true∨(pgstart≤p∧p≤pgend) := by
    intro p
    rw [has_iff]
    omega
  have hout : ∀ p,(s.range r).has p=false ↔ ¬(s.range r).has p=true := fun p =>
    (Bool.not_eq_true _).symm.to_iff
  refine ⟨h'.inv,only.trans h'.only,fun p => ?_,fun p hp => h'.purged p ?_⟩
  · rw [h'.covered,covered,hin,hout]
    by_cases hp : (s.range r).has p=true
    · have hc : Covered s a (fun _ => True) p := ⟨r,hr,hp,trivial⟩
      exact iff_of_true (.inr (.inl hp)) (.inl hc)
    · rw [and_iff_left hp,or_iff_right hp]
  · rw [hin,covered,hout]
    by_cases hp' : (s.range r).has p=true
    · refine .inr ⟨?_,.inl hp'⟩
      rcases hp with hc|hc
      · rw [h.mark_of_has hr hp' hc,Bool.or_true]
      · rw [hc.1,Bool.true_or]
    · rcases hp with hc|hc
      · exact .inl ⟨hc,hp'⟩
      · rw [hc.1,Bool.true_or]
        exact .inr ⟨rfl,.inr hc.2⟩

/-- Unpinning adds the pages of the interval to the ranges of the area. -/
theorem unpinLoop_spec (fuel : ℕ) : ∀ (pgstart pgend : ℕ) (purged : Bool) (s : State),Inv s →
    Fresh s addr → pgstart≤pgend → (s.unpinned a).length<fuel →
    (purged=true → ∃ p,(pgstart≤p∧p≤pgend)∧¬Covered s a (fun _ => True) p) →
    ∃ s',unpinLoop addr a fuel pgstart pgend purged s=some s'∧
      Unpinned a pgstart pgend purged s s' := by
  induction fuel with
  | zero =>
    intro _ _ _ s _ _ _ hlen
    exact absurd hlen (Nat.not_lt_zero _)
  | succ fuel ih =>
    intro pgstart pgend purged s h fresh hle hlen hnew
    have hfinds := unpinScan_finds hle (s.unpinned a) (fun r hr => (h.owned a r hr).1)
      (h.descending a)
    unfold unpinLoop
    generalize unpinScan s pgstart pgend (s.unpinned a)=scan at hfinds ⊢
    cases scan with
    | subsumed =>
      have ⟨r,hr,h1,h2⟩ := hfinds
      have hin : ∀ p,pgstart≤p∧p≤pgend → Covered s a (fun _ => True) p := fun p hp =>
        ⟨r,hr,(has_iff _ _).mpr ⟨by omega,by omega⟩,trivial⟩
      refine ⟨s,rfl,h,Only.refl a s,fun p => ⟨.inl,fun hp => hp.elim id (hin p)⟩,fun p hp => ?_⟩
      rcases hp with hp|⟨hpur,_⟩
      · exact hp
      · have ⟨q,hq,hnot⟩ := hnew hpur
        exact absurd (hin q hq) hnot
    | merge r =>
      have ⟨hr,hmeets⟩ := hfinds
      have ⟨hi,only,hl,covered⟩ := rangeDel_spec h hr
      have hr0 := (h.owned a r hr).1
      have hlen' : ((rangeDel s r).unpinned a).length<fuel := by
        rw [hl,List.length_erase_of_mem hr]
        have := List.length_pos_of_mem hr
        omega
      have ⟨s',hrun,hs'⟩ := ih (min (s.range r).pgstart pgstart) (max (s.range r).pgend pgend)
        (purged||(s.range r).purged) (rangeDel s r) hi (fresh_rangeDel fresh r) (by omega) hlen'
        fun _ => by
          refine ⟨(s.range r).pgstart,by omega,fun hc => ?_⟩
          have hout := ((covered _ _).mp hc).2
          rw [(has_iff _ _).mpr ⟨le_rfl,hr0⟩] at hout
          cases hout
      exact ⟨s',hrun,hs'.merge h hr hmeets⟩
    | insert prev =>
      have ⟨xs,ys,hlist,hprev,hxs,hys⟩ := hfinds
      have ⟨hi,only,covered⟩ := rangeAlloc_spec h prev purged fresh hle hlist hprev hxs hys
      refine ⟨_,rfl,hi,only,fun p => ?_,fun p hp => ?_⟩
      · rw [covered,and_true]
      · rw [covered]
        exact hp.imp_right fun hp => ⟨hp.2,hp.1⟩

theorem ashmemUnpin_spec (h : Inv s) (fresh : Fresh s addr) (hle : pgstart≤pgend) :
    ∃ s',ashmemUnpin s addr a pgstart pgend=some s'∧Unpinned a pgstart pgend false s s' :=
  unpinLoop_spec _ pgstart pgend false s h fresh hle (Nat.lt_succ_self _) fun hf => by cases hf

/-! ## Releasing an area, and reclaiming memory -/

theorem ashmemRelease_spec (h : Inv s) (a : ℕ) :
    Inv (ashmemRelease s a)∧Only a s (ashmemRelease s a)∧(ashmemRelease s a).unpinned a=[] := by
  unfold ashmemRelease
  generalize hl : s.unpinned a=l
  induction l generalizing s with
  | nil => exact ⟨h,Only.refl a s,hl⟩
  | cons r rs ih =>
    have hr : r∈s.unpinned a := by
      rw [hl]
      exact List.mem_cons_self
    have ⟨hi,only,hdel,_⟩ := rangeDel_spec h hr
    have ⟨hi',only',hnil⟩ := ih hi (by rw [hdel,hl,List.erase_cons_head])
    exact ⟨hi',only.trans only',hnil⟩

/-- What reclaiming memory leaves as it is, and how the marks change. -/
structure Shrunk (s s' : State) (truncated : List Range) : Prop where
  inv : Inv s'
  covered : ∀ a p,Covered s' a (fun _ => True) p ↔ Covered s a (fun _ => True) p
  keeps : ∀ a p,Covered s a (·=true) p → Covered s' a (·=true) p
  purged : ∀ t∈truncated,∀ p,t.has p=true → Covered s' t.asma (·=true) p

/-- The first range of the LRU list is truncated. -/
theorem shrink_first (h : Inv s) {rs : List ℕ} (hl : s.lru=r::rs) :
    Shrunk s (lruDel { s with
      range := update s.range r { s.range r with purged := true } } r) [s.range r]∧
    (lruDel { s with
      range := update s.range r { s.range r with purged := true } } r).lru=rs := by
  have hmem : r∈s.lru := by
    rw [hl]
    exact List.mem_cons_self
  have ⟨hr,_⟩ := (h.lruExact r).mp hmem
  have herase : s.lru.erase r=rs := by rw [hl,List.erase_cons_head]
  have hnodup := h.lruNodup
  have hpages : ∀ x,(update s.range r { s.range r with purged := true } x).pgstart=
      (s.range x).pgstart∧
      (update s.range r { s.range r with purged := true } x).pgend=(s.range x).pgend∧
      (update s.range r { s.range r with purged := true } x).asma=(s.range x).asma := by
    intro x
    by_cases hx : x=r
    · rw [hx,update_self]
      exact ⟨rfl,rfl,rfl⟩
    · rw [update_of_ne hx]
      exact ⟨rfl,rfl,rfl⟩
  have hhas : ∀ x p,(update s.range r { s.range r with purged := true } x).has p=
      (s.range x).has p := by
    intro x p
    unfold Range.has
    rw [(hpages x).1,(hpages x).2.1]
  have hsize : ∀ x,(update s.range r { s.range r with purged := true } x).size=
      (s.range x).size := by
    intro x
    unfold Range.size
    rw [(hpages x).1,(hpages x).2.1]
  refine ⟨⟨⟨?_,?_,?_,?_,?_⟩,?_,?_,?_⟩,herase⟩
  · intro b x hx
    have ho := h.owned b x hx
    have hp := hpages x
    exact ⟨(hp.1.trans_le ho.1).trans hp.2.1.ge,hp.2.2.trans ho.2⟩
  · intro b
    refine (h.descending b).imp fun {x y} hxy => ?_
    exact ((hpages y).2.1.trans_lt hxy).trans_eq (hpages x).1.symm
  · exact h.lruNodup.erase r
  · intro x
    show x∈s.lru.erase r ↔ _
    rw [h.lruNodup.mem_erase_iff]
    have hx := h.lruExact x
    show _ ↔ x∈s.unpinned (update s.range r _ x).asma∧
      (update s.range r _ x).purged=false
    by_cases hxr : x=r
    · rw [hxr,update_self]
      exact iff_of_false (fun hh => hh.1 rfl) fun hh => by cases hh.2
    · rw [update_of_ne hxr,hx]
      exact and_iff_right hxr
  · show s.lruCount-(update s.range r _ r).size=
      ((s.lru.erase r).map fun x => (update s.range r _ x).size).sum
    rw [hsize,h.lruCount_erase hmem]
    exact congrArg List.sum (List.map_congr_left fun x _ => (hsize x).symm)
  · intro b p
    refine exists_congr fun x => and_congr_right fun _ => ?_
    rw [and_true,and_true]
    show (update s.range r _ x).has p=true ↔ _
    rw [hhas]
  · intro b p ⟨x,hx,hp,hf⟩
    refine ⟨x,hx,(hhas x p).trans hp,?_⟩
    show (update s.range r _ x).purged=true
    by_cases hxr : x=r
    · rw [hxr,update_self]
    · rw [update_of_ne hxr]
      exact hf
  · intro t ht p hp
    rw [List.mem_singleton.mp ht] at hp ⊢
    refine ⟨r,hr,(hhas r p).trans hp,?_⟩
    show (update s.range r _ r).purged=true
    rw [update_self]

/-- Reclaiming memory marks the ranges it truncates. -/
theorem shrinkLoop_spec (rs : List ℕ) : ∀ (nr : Int32) (s : State),Inv s → s.lru=rs →
    Shrunk s (shrinkLoop rs nr s).1 (shrinkLoop rs nr s).2 := by
  induction rs with
  | nil =>
    intro nr s h _
    exact ⟨h,fun _ _ => Iff.rfl,fun _ _ hp => hp,fun t ht => absurd ht List.not_mem_nil⟩
  | cons r rs ih =>
    intro nr s h hl
    have ⟨h1,hl1⟩ := shrink_first h hl
    unfold shrinkLoop
    dsimp only
    split
    · exact h1
    · have h2 := ih ((nr.toUInt32-((lruDel { s with
        range := update s.range r { s.range r with purged := true } } r).range
          r).size).toInt32) _ h1.inv hl1
      refine ⟨h2.inv,fun b p => (h2.covered b p).trans (h1.covered b p),
        fun b p hp => h2.keeps b p (h1.keeps b p hp),fun t ht p hp => ?_⟩
      rcases List.mem_cons.mp ht with ht|ht
      · exact h2.keeps _ p (h1.purged t (List.mem_singleton.mpr ht) p hp)
      · exact h2.purged t ht p hp

theorem ashmemShrink_spec (h : Inv s) (nr : Int32) (gfpFs : Bool) :
    Shrunk s (ashmemShrink s nr gfpFs).2.1 (ashmemShrink s nr gfpFs).2.2 := by
  have hsame : Shrunk s s [] :=
    ⟨h,fun _ _ => Iff.rfl,fun _ _ hp => hp,fun t ht => absurd ht List.not_mem_nil⟩
  unfold ashmemShrink
  split
  · exact hsame
  split
  · exact hsame
  · exact shrinkLoop_spec _ nr s h rfl

theorem mem_truncatedPages (rs : List Range) (a p : ℕ) :
    p∈truncatedPages rs a ↔ ∃ t∈rs,t.asma=a∧t.has p=true := by
  unfold truncatedPages
  induction rs with
  | nil => simp
  | cons t ts ih =>
    rw [List.foldr_cons]
    split
    · next ht => simp [ih,ht,has_iff]
    · next ht => simp [ih,ht]

/-! ## Asking for the state of pages -/

theorem statusLoop_iff (hle : pgstart≤pgend) (l : List ℕ)
    (owned : ∀ r∈l,(s.range r).pgstart≤(s.range r).pgend)
    (hd : l.Pairwise fun r r' => (s.range r').pgend<(s.range r).pgstart) :
    statusLoop s pgstart pgend l=true ↔
      ∃ p,(pgstart≤p∧p≤pgend)∧∃ r∈l,(s.range r).has p=true := by
  induction l with
  | nil => simp [statusLoop]
  | cons r rs ih =>
    have ⟨hafter,hrs⟩ := List.pairwise_cons.mp hd
    have hr := owned r List.mem_cons_self
    have hi := ih (fun x hx => owned x (List.mem_cons_of_mem _ hx)) hrs
    unfold statusLoop
    by_cases hb : (s.range r).before pgstart=true
    · rw [if_pos hb]
      rw [before_iff] at hb
      refine iff_of_false (by simp) ?_
      rintro ⟨p,hp,x,hx,hh⟩
      rw [has_iff] at hh
      rcases List.mem_cons.mp hx with hx|hx
      · rw [hx] at hh
        omega
      · have := hafter x hx
        omega
    rw [if_neg hb]
    by_cases hm : (s.range r).meets pgstart pgend=true
    · rw [if_pos hm]
      rw [meets_iff hr hle] at hm
      refine iff_of_true rfl ⟨max pgstart (s.range r).pgstart,by omega,r,List.mem_cons_self,?_⟩
      rw [has_iff]
      omega
    rw [if_neg hm,hi]
    rw [meets_iff hr hle] at hm
    refine exists_congr fun p => and_congr_right fun hp => ?_
    rw [List.exists_mem_cons_iff,or_iff_right]
    rw [has_iff]
    omega

theorem ashmemGetPinStatus_iff (h : Inv s) (hle : pgstart≤pgend) :
    ashmemGetPinStatus s a pgstart pgend=true ↔
      ∃ p,(pgstart≤p∧p≤pgend)∧Covered s a (fun _ => True) p := by
  unfold ashmemGetPinStatus
  rw [statusLoop_iff hle _ (fun r hr => (h.owned a r hr).1) (h.descending a)]
  refine exists_congr fun p => and_congr_right fun _ => ?_
  unfold Covered
  simp only [and_true]

/-! ## Runs -/

/-- What holds between two operations: the ranges of each area lie one before
the other and are the unpinned pages, the state reported for an interval is
right, and the LRU list has the ranges that were not purged. -/
structure Sound (c : Session) : Prop where
  descending : ∀ a,(c.state.unpinned a).Pairwise fun r r' =>
    (c.state.range r').pgend<(c.state.range r).pgstart
  nonempty : ∀ a,∀ r∈c.state.unpinned a,(c.state.range r).pgstart≤(c.state.range r).pgend
  pages : ∀ a p,p∈c.pages a ↔
    ∃ r∈c.state.unpinned a,(c.state.range r).pgstart≤p∧p≤(c.state.range r).pgend
  status : ∀ a pgstart pgend,pgstart≤pgend →
    (ashmemGetPinStatus c.state a pgstart pgend=true ↔ ∃ p∈c.pages a,pgstart≤p∧p≤pgend)
  lruNodup : c.state.lru.Nodup
  lru : ∀ r,r∈c.state.lru ↔ (∃ a,r∈c.state.unpinned a)∧(c.state.range r).purged=false
  lruCount : c.state.lruCount=(c.state.lru.map fun r => (c.state.range r).size).sum

/-- Pinning reports the truncated pages among those a condition admits. -/
def Reported (c : Session) (among : ℕ → Finset ℕ) : Prop :=
  ∀ addr a pgstart pgend,Fresh c.state addr → pgstart≤pgend →
    (∃ p,pgstart≤p∧p≤pgend∧p∈c.truncated a∧p∈among a) →
    (ashmemPin c.state addr a pgstart pgend).1=true

/-- What every operation keeps. -/
structure SessionInv (c : Session) : Prop where
  inv : Inv c.state
  pages : ∀ a p,p∈c.pages a ↔ Covered c.state a (fun _ => True) p
  truncated : ∀ a p,p∈c.truncated a → p∈c.pages a → Covered c.state a (·=true) p

theorem SessionInv.sound {c : Session} (h : SessionInv c) : Sound c := by
  have hpages : ∀ a p,p∈c.pages a ↔
      ∃ r∈c.state.unpinned a,(c.state.range r).pgstart≤p∧p≤(c.state.range r).pgend := by
    intro a p
    rw [h.pages]
    refine exists_congr fun r => and_congr_right fun _ => ?_
    rw [and_true,has_iff]
  refine ⟨h.inv.descending,fun a r hr => (h.inv.owned a r hr).1,hpages,?_,h.inv.lruNodup,
    fun r => ?_,h.inv.lruCount⟩
  · intro a pgstart pgend hle
    rw [ashmemGetPinStatus_iff h.inv hle]
    refine exists_congr fun p => ?_
    rw [h.pages,and_comm]
  · rw [h.inv.lruExact]
    refine and_congr_left fun _ => ⟨fun hr => ⟨_,hr⟩,fun ⟨a,hr⟩ => ?_⟩
    rw [(h.inv.owned a r hr).2]
    exact hr

theorem SessionInv.reported {c : Session} (h : SessionInv c) : Reported c c.pages := by
  intro addr a pgstart pgend fresh hle ⟨p,h1,h2,ht,hp⟩
  exact (ashmemPin_spec h.inv fresh hle).purged (.inr ⟨p,h1,h2,h.truncated a p ht hp⟩)

theorem start_inv : SessionInv Session.start := by
  refine ⟨⟨?_,?_,List.nodup_nil,?_,rfl⟩,?_,?_⟩
  · intro a r hr
    cases hr
  · intro a
    exact List.Pairwise.nil
  · intro r
    exact iff_of_false List.not_mem_nil fun hr => List.not_mem_nil hr.1
  · intro a p
    refine iff_of_false (Finset.notMem_empty p) ?_
    rintro ⟨r,hr,_⟩
    cases hr
  · intro a p hp
    exact absurd hp (Finset.notMem_empty p)

/-- Every operation is possible and keeps what holds. -/
theorem step_inv {c : Session} (h : SessionInv c) {op : Op} (ok : Admitted c op) :
    ∃ c',step c op=some c'∧SessionInv c' := by
  cases op with
  | pin addr a pgstart pgend =>
    have ⟨fresh,hle⟩ := ok
    have hp := ashmemPin_spec h.inv (a := a) fresh hle
    refine ⟨_,rfl,hp.inv,fun b p => ?_,fun b p ht hin => ?_⟩
    · dsimp only
      by_cases hb : b=a
      · rw [hb,update_self,Finset.mem_sdiff,Finset.mem_Icc,h.pages]
        exact (hp.covered _ p).symm
      · rw [update_of_ne hb,h.pages]
        exact (hp.only.covered hb _ p).symm
    · dsimp only at ht hin ⊢
      by_cases hb : b=a
      · rw [hb,update_self,Finset.mem_sdiff,Finset.mem_Icc] at hin
        rw [hb] at ht ⊢
        exact (hp.covered _ p).mpr ⟨h.truncated a p ht hin.1,hin.2⟩
      · rw [update_of_ne hb] at hin
        exact (hp.only.covered hb _ p).mpr (h.truncated b p ht hin)
  | unpin addr a pgstart pgend =>
    have ⟨fresh,hle⟩ := ok
    have ⟨s',hrun,hu⟩ := ashmemUnpin_spec h.inv (a := a) fresh hle
    refine ⟨⟨s',update c.pages a (c.pages a∪Finset.Icc pgstart pgend),
      update c.truncated a (c.truncated a\Finset.Icc pgstart pgend)⟩,?_,hu.inv,
      fun b p => ?_,fun b p ht hin => ?_⟩
    · unfold step
      dsimp only
      rw [hrun]
      rfl
    · dsimp only
      by_cases hb : b=a
      · rw [hb,update_self,Finset.mem_union,Finset.mem_Icc,h.pages]
        exact (hu.covered p).symm
      · rw [update_of_ne hb,h.pages]
        exact (hu.only.covered hb _ p).symm
    · dsimp only at ht hin ⊢
      by_cases hb : b=a
      · rw [hb,update_self,Finset.mem_sdiff,Finset.mem_Icc] at ht
        rw [hb,update_self,Finset.mem_union,Finset.mem_Icc,or_iff_left ht.2] at hin
        rw [hb]
        exact hu.purged p (.inl (h.truncated a p ht.1 hin))
      · rw [update_of_ne hb] at ht hin
        exact (hu.only.covered hb _ p).mpr (h.truncated b p ht hin)
  | shrink nr gfpFs =>
    have hs := ashmemShrink_spec h.inv nr gfpFs
    refine ⟨_,rfl,hs.inv,fun a p => (h.pages a p).trans (hs.covered a p).symm,
      fun a p ht hin => ?_⟩
    rcases Finset.mem_union.mp ht with ht|ht
    · exact hs.keeps a p (h.truncated a p ht hin)
    · have ⟨t,ht,hta,htp⟩ := (mem_truncatedPages _ a p).mp ht
      rw [←hta]
      exact hs.purged t ht p htp
  | release a =>
    have ⟨hi,only,hnil⟩ := ashmemRelease_spec h.inv a
    refine ⟨_,rfl,hi,fun b p => ?_,fun b p ht hin => ?_⟩
    · dsimp only
      by_cases hb : b=a
      · rw [hb,update_self]
        refine iff_of_false (Finset.notMem_empty p) ?_
        rintro ⟨r,hr,_⟩
        rw [hnil] at hr
        cases hr
      · rw [update_of_ne hb,h.pages]
        exact (only.covered hb _ p).symm
    · dsimp only at ht hin ⊢
      by_cases hb : b=a
      · rw [hb,update_self] at ht
        exact absurd ht (Finset.notMem_empty p)
      · rw [update_of_ne hb] at ht hin
        exact (only.covered hb _ p).mpr (h.truncated b p ht hin)

/-- After any operations the lists are the pages they stand for, and pinning
reports every truncated page that was not pinned since. -/
theorem run_ranges {ops : List Op} {c : Session}
    (h : Run step Admitted Session.start ops c) :
    Sound c∧Reported c c.pages∧∀ op,Admitted c op → ∃ c',step c op=some c' := by
  have hinv := h.invariant SessionInv start_inv fun hi ok hs => by
    have ⟨c',hs',hi'⟩ := step_inv hi ok
    rw [hs] at hs'
    rw [Option.some.inj hs']
    exact hi'
  refine ⟨hinv.sound,hinv.reported,fun op ok => ?_⟩
  have ⟨c',hs,_⟩ := step_inv hinv ok
  exact ⟨c',hs⟩

/-- A page is unpinned, truncated and pinned again. -/
theorem purged_run : ∃ c,Run step Admitted Session.start
    [.unpin 1 0 0 0,.shrink 1 true,.pin 2 0 0 0] c∧
    0∈c.truncated 0∧(ashmemPin c.state 2 0 0 0).1=false∧Fresh c.state 2 := by
  have hstart : Fresh Session.start.state 1 := fun _ h => List.not_mem_nil h
  have hlists : ∀ f : ℕ → List ℕ,(∀ a,2∉f a) → ∀ l,2∉l → ∀ a,2∉update f 0 l a := by
    intro f hf l hl a h
    by_cases ha : a=0
    · rw [ha,update_self] at h
      exact hl h
    · rw [update_of_ne ha] at h
      exact hf a h
  have hone := hlists _ (fun _ => List.not_mem_nil) [1] (by decide)
  refine ⟨_,Run.cons ⟨hstart,le_rfl⟩ rfl (Run.cons trivial rfl (Run.cons ⟨hone,le_rfl⟩ rfl
    (Run.nil _))),?_,?_,?_⟩
  · decide
  · rfl
  · exact hlists _ hone [] (by decide)

/-- One page goes through all operations. -/
theorem run_ranges_example : ∃ c,(Sound c∧Reported c c.pages∧
    ∀ op,Admitted c op → ∃ c',step c op=some c')∧0∈c.truncated 0 := by
  have ⟨c,hrun,ht,_⟩ := purged_run
  exact ⟨c,run_ranges hrun,ht⟩

/-- A page that was truncated is reported once: the second time it is pinned, it is not. -/
theorem pin_unreported : ¬∀ ops c,Run step Admitted Session.start ops c →
    Reported c c.truncated := by
  intro h
  have ⟨c,hrun,ht,hpin,fresh⟩ := purged_run
  have hr := h _ c hrun 2 0 0 0 fresh le_rfl ⟨0,le_rfl,le_rfl,ht,ht⟩
  rw [hpin] at hr
  cases hr

end ArdroneKernel.Ashmem
