import ArdroneKernel.UbiWlRuns
import Mathlib.Tactic.Linarith

/-!
# The wear of the eraseblock that is handed out

`find_wl_entry` finds the free eraseblock with the greatest erase counter
below a bound that it computes from the lowest counter. For unknown data
`ubi_wl_get_peb` passes a number that contains the lowest counter already.
-/

namespace ArdroneKernel.UbiWlPick

open UbiScan UbiWearLeveling UbiWlPlaces UbiWlRuns

/-- The value is one of a 32-bit signed integer. -/
def Fits (v : ℤ) : Prop := -2^31≤v∧v<2^31

/-- The results of the signed computations in the choice, in order. -/
def computed (cfg : Config) (st : State) : Dtype → List ℤ
  | .longterm => st.free.first.toList.map fun first => cfg.freeMaxDiff+st.ec first
  | .shortterm => []
  | .unknown =>
    match st.free.first,st.free.last with
    | some first,some last =>
      (st.ec last-st.ec first)::if st.ec last-st.ec first<cfg.freeMaxDiff then []
      else [st.ec first+cfg.freeMaxDiff,Int.tdiv (st.ec first+cfg.freeMaxDiff) 2,
        Int.tdiv (st.ec first+cfg.freeMaxDiff) 2+st.ec first]
    | _,_ => []

/-- The wear of the eraseblock that is handed out is bounded. -/
structure Bounded (cfg : Config) (st : State) (dtype : Dtype) : Prop where
  /-- Its counter is less than any free counter, so than the lowest, and the difference allowed. -/
  picked : ∃ st' e,ubiWlGetPeb cfg st dtype=some (st',e)∧e∈st.free.toList∧
    ∀ x∈st.free.toList,st.ec e<st.ec x+cfg.freeMaxDiff
  /-- Nothing overflows. -/
  fits : ∀ v∈computed cfg st dtype,Fits v

/-- The counters among which the choice is right, by the lowest and the highest free counter. -/
def Moderate (cfg : Config) (st : State) (first last : ℕ) : Dtype → Prop
  | .longterm => st.ec first+cfg.freeMaxDiff<2^31
  | .shortterm => True
  | .unknown => st.ec last-st.ec first<cfg.freeMaxDiff∨
      (st.ec first+(st.ec first+cfg.freeMaxDiff)/2<2^31∧∀ x∈st.free.toList,
        st.ec x<st.ec first+cfg.freeMaxDiff∨st.ec first+(st.ec first+cfg.freeMaxDiff)/2≤ st.ec x)

section Trees

variable {ec : ℕ → ℤ} {t : SearchTree.Tree ℕ}

theorem before_le {a b : ℕ} (h : Before ec a b) : ec a≤ec b := by
  rcases h with h|h
  · exact h.le
  · exact h.1.le

theorem first_eq (t : SearchTree.Tree ℕ) : t.first=t.toList.head? := by
  induction t with
  | nil => rfl
  | node l x r ihl _ =>
    cases l with
    | nil => rfl
    | node a b c =>
      have hne : (SearchTree.Tree.node a b c).toList≠[] := by simp [SearchTree.Tree.toList]
      change (SearchTree.Tree.node a b c).first=((SearchTree.Tree.node a b c).toList++x::r.toList).head?
      rw [ihl,List.head?_append_of_ne_nil _ hne]

theorem last_eq (t : SearchTree.Tree ℕ) : t.last=t.toList.getLast? := by
  induction t with
  | nil => rfl
  | node l x r _ ihr =>
    cases r with
    | nil => simp [SearchTree.Tree.last,SearchTree.Tree.toList]
    | node a b c =>
      have hne : (SearchTree.Tree.node a b c).toList≠[] := by simp [SearchTree.Tree.toList]
      change (SearchTree.Tree.node a b c).last=(l.toList++x::(SearchTree.Tree.node a b c).toList).getLast?
      rw [ihr,List.getLast?_append_of_ne_nil _ (List.cons_ne_nil _ _),List.getLast?_cons_of_ne_nil hne]

/-- The first element of a tree has the lowest counter. -/
theorem first_le (h : Sorted ec t) {f : ℕ} (hf : t.first=some f) : ∀ x∈t.toList,ec f≤ec x := by
  rw [first_eq] at hf
  obtain ⟨l,hl⟩ := List.head?_eq_some_iff.mp hf
  unfold Sorted at h
  rw [hl] at h ⊢
  intro x hx
  rcases List.mem_cons.mp hx with rfl|hx
  · exact le_rfl
  · exact before_le ((List.pairwise_cons.mp h).1 x hx)

/-- The last one has the highest. -/
theorem le_last (h : Sorted ec t) {b : ℕ} (hb : t.last=some b) : ∀ x∈t.toList,ec x≤ec b := by
  rw [last_eq] at hb
  obtain ⟨l,hl⟩ := List.getLast?_eq_some_iff.mp hb
  unfold Sorted at h
  rw [hl] at h ⊢
  intro x hx
  rcases List.mem_append.mp hx with hx|hx
  · exact before_le ((List.pairwise_append.mp h).2.2 x hx b (List.mem_singleton_self b))
  · rw [List.mem_singleton.mp hx]

/-- The loop ends at the element with the greatest counter below the bound,
or keeps what it began with when there is none. -/
theorem closest_spec {max : ℤ} (h : Sorted ec t) (e : ℕ) :
    (closest ec max e t=e∧∀ x∈t.toList,max≤ec x)∨
      (closest ec max e t∈t.toList∧ec (closest ec max e t)< max∧
        ∀ x∈t.toList,ec x< max → ec x≤ec (closest ec max e t)) := by
  induction t generalizing e with
  | nil => exact Or.inl ⟨rfl,nofun⟩
  | node l y r ihl ihr =>
    obtain ⟨hl,hr,hly,hyr,hlr⟩ := SearchTree.Tree.pairwise_node.mp h
    have hmem : ∀ x,x∈(SearchTree.Tree.node l y r).toList ↔ x∈l.toList∨x=y∨x∈r.toList := by simp [SearchTree.Tree.toList]
    simp only [hmem]
    rw [closest]
    split
    · next hge =>
      -- nothing from here on is below the bound
      have hup : ∀ x,x=y∨x∈r.toList → max≤ec x := by
        rintro x (rfl|hx)
        · exact hge
        · exact le_trans hge (before_le (hyr x hx))
      rcases ihl hl e with ⟨he,hall⟩|⟨hc,hlt,hall⟩
      · exact Or.inl ⟨he,fun x hx => hx.elim (hall x) (hup x)⟩
      · refine Or.inr ⟨Or.inl hc,hlt,?_⟩
        rintro x (hx|hx) hxm
        · exact hall x hx hxm
        · exact absurd (hup x hx) (not_le.mpr hxm)
    · next hlt =>
      have hy := not_le.mp hlt
      rcases ihr hr y with ⟨he,hall⟩|⟨hc,hlt',hall⟩
      · rw [he]
        refine Or.inr ⟨Or.inr (Or.inl rfl),hy,?_⟩
        rintro x (hx|rfl|hx) hxm
        · exact before_le (hly x hx)
        · exact le_rfl
        · exact absurd (hall x hx) (not_le.mpr hxm)
      · refine Or.inr ⟨Or.inr (Or.inr hc),hlt',?_⟩
        rintro x (hx|rfl|hx) hxm
        · exact before_le (hlr x hx _ hc)
        · exact before_le (hyr _ hc)
        · exact hall x hx hxm

/-- `find_wl_entry` in a tree that is not empty, with a positive difference. -/
theorem findWlEntry_spec (h : Sorted ec t) {f : ℕ} (hf : t.first=some f) (diff : ℤ)
    (hd : 0<diff) :
    ∃ e,findWlEntry ec t diff=some e∧e∈t.toList∧ec e<diff+ec f∧
      ∀ x∈t.toList,ec x<diff+ec f → ec x≤ec e := by
  refine ⟨closest ec (diff+ec f) f t,by rw [findWlEntry,hf]; rfl,?_⟩
  rcases @closest_spec ec t (diff+ec f) h f with ⟨-,hall⟩|hs
  · have := hall f (SearchTree.Tree.first_mem hf)
    omega
  · exact hs

end Trees

section Choice

variable {cfg : Config} {st : State} {first last : ℕ}

theorem ubiWlGetPeb_iff {dtype : Dtype} {e : ℕ} :
    (∃ st',ubiWlGetPeb cfg st dtype=some (st',e)) ↔ pickFree cfg st dtype=some e := by
  unfold ubiWlGetPeb
  cases pickFree cfg st dtype <;> simp

/-- The choice is right when the eraseblock found is. -/
theorem bounded_iff (h : Sorted st.ec st.free) (hf : st.free.first=some first) {dtype : Dtype} {e : ℕ}
    (he : pickFree cfg st dtype=some e) :
    Bounded cfg st dtype ↔ st.ec e<st.ec first+cfg.freeMaxDiff∧∀ v∈computed cfg st dtype,Fits v := by
  obtain ⟨st',hst⟩ := ubiWlGetPeb_iff.mpr he
  constructor
  · rintro ⟨⟨st'',e',he',-,hlow⟩,hfit⟩
    rw [hst] at he'
    cases he'
    exact ⟨hlow first (SearchTree.Tree.first_mem hf),hfit⟩
  · rintro ⟨hlow,hfit⟩
    refine ⟨⟨st',e,hst,pickFree_mem he,fun x hx => ?_⟩,hfit⟩
    have := first_le h hf x hx
    omega

variable (h2 : 2≤cfg.threshold) (h65536 : cfg.threshold≤65536) (h : Sorted st.ec st.free)
  (hec : ∀ e∈st.free.toList,0≤ st.ec e∧st.ec e≤UBI_MAX_ERASECOUNTER)
  (hf : st.free.first=some first) (hl : st.free.last=some last)

include h2 h65536 h hec hf

theorem longterm_iff : Bounded cfg st .longterm ↔ st.ec first+cfg.freeMaxDiff<2^31 := by
  have hd : cfg.freeMaxDiff=2*cfg.threshold := rfl
  have hpos := (hec first (SearchTree.Tree.first_mem hf)).1
  obtain ⟨e,he,-,hlt,-⟩ := findWlEntry_spec h hf cfg.freeMaxDiff (by omega)
  rw [bounded_iff h hf (show pickFree cfg st .longterm=some e from he)]
  have hcomp : computed cfg st .longterm=[cfg.freeMaxDiff+st.ec first] := by
    rw [computed,hf]
    rfl
  rw [hcomp]
  simp only [List.forall_mem_singleton,Fits]
  omega

include hl

/-- For unknown data the bound of the search is the lowest counter and half
of its sum with the difference allowed. -/
theorem unknown_iff : Bounded cfg st .unknown ↔ Moderate cfg st first last .unknown := by
  have hd : cfg.freeMaxDiff=2*cfg.threshold := rfl
  have hfm := SearchTree.Tree.first_mem hf
  have hlm : last∈st.free.toList := List.mem_of_getLast? (by rw [←last_eq,hl])
  obtain ⟨hf0,-⟩ := hec first hfm
  obtain ⟨-,hlmax⟩ := hec last hlm
  have hmax : UBI_MAX_ERASECOUNTER=2^31-1 := rfl
  have hfl := first_le h hf last hlm
  unfold Moderate
  by_cases hnear : st.ec last-st.ec first<cfg.freeMaxDiff
  · -- the root of the tree will do
    obtain ⟨e,he⟩ : ∃ e,rbNode st.free=some e := by
      cases hfree : st.free with
      | nil => rw [hfree] at hf; cases hf
      | node l x r => exact ⟨x,rfl⟩
    have hpick : pickFree cfg st .unknown=some e := by
      rw [pickFree,hf,hl]
      dsimp only
      rw [if_pos hnear,he]
    have hcomp : computed cfg st .unknown=[st.ec last-st.ec first] := by
      rw [computed,hf,hl]
      dsimp only
      rw [if_pos hnear]
    have hle := le_last h hl e (pickFree_mem hpick)
    rw [bounded_iff h hf hpick,hcomp]
    simp only [List.forall_mem_singleton,Fits]
    exact ⟨fun _ => Or.inl hnear,fun _ => ⟨by omega,by omega,by omega⟩⟩
  · have hdiv : Int.tdiv (st.ec first+cfg.freeMaxDiff) 2=(st.ec first+cfg.freeMaxDiff)/2 :=
      Int.tdiv_eq_ediv_of_nonneg (by omega)
    obtain ⟨e,he,hem,hlt,hall⟩ := findWlEntry_spec h hf ((st.ec first+cfg.freeMaxDiff)/2)
      (by omega)
    have hpick : pickFree cfg st .unknown=some e := by
      rw [pickFree,hf,hl]
      dsimp only
      rw [if_neg hnear,hdiv,he]
    have hcomp : computed cfg st .unknown=[st.ec last-st.ec first,st.ec first+cfg.freeMaxDiff,
        (st.ec first+cfg.freeMaxDiff)/2,(st.ec first+cfg.freeMaxDiff)/2+st.ec first] := by
      rw [computed,hf,hl]
      dsimp only
      rw [if_neg hnear,hdiv]
    rw [bounded_iff h hf hpick,hcomp]
    simp only [List.forall_mem_cons,Fits]
    constructor
    · rintro ⟨hlow,-,-,-,hfit,-⟩
      refine Or.inr ⟨by omega,fun x hx => ?_⟩
      by_contra hne
      have := hall x hx (by omega)
      omega
    · rintro (hn|⟨hfit,hgap⟩)
      · exact absurd hn hnear
      · have := hgap e hem
        exact ⟨by omega,by omega,by omega,by omega,by omega,fun _ h => absurd h List.not_mem_nil⟩

/-- For every tree of free eraseblocks and every type of data, the wear of
the eraseblock handed out is bounded exactly when the lowest counter leaves
room for the sums, and for unknown data no counter lies between the bound
and the one that the search really uses. -/
theorem bounded_iff_moderate (dtype : Dtype) :
    Bounded cfg st dtype ↔ Moderate cfg st first last dtype := by
  cases dtype with
  | longterm => exact longterm_iff h2 h65536 h hec hf
  | shortterm =>
    have hd : cfg.freeMaxDiff=2*cfg.threshold := rfl
    rw [bounded_iff h hf (show pickFree cfg st .shortterm=some first from hf)]
    exact ⟨fun _ => trivial,fun _ => ⟨by omega,nofun⟩⟩
  | unknown => exact unknown_iff h2 h65536 h hec hf hl

end Choice

/-- Two free eraseblocks with the given counters. -/
def twoWorn (a b : ℤ) : State :=
  { ubiWlInitScan smallConfig twoFree with ec := fun e => if e=0 then a else b }

theorem twoWorn_sorted {a b : ℤ} (h : a≤b) : Sorted (twoWorn a b).ec (twoWorn a b).free := by
  refine List.pairwise_pair.mpr ?_
  rcases h.lt_or_eq with hlt|rfl
  · exact Or.inl hlt
  · exact Or.inr ⟨rfl,by decide⟩

theorem bounded_iff_moderate_example : Bounded smallConfig (twoWorn 7 9) .unknown :=
  (bounded_iff_moderate (by decide) (by decide) (twoWorn_sorted (by decide)) (by decide)
    (show (twoWorn 7 9).free.first=some 0 from rfl) (show (twoWorn 7 9).free.last=some 1 from rfl)
    .unknown).mpr (Or.inl (by decide))

/-- With the counters 20000 and 30000 the second eraseblock is handed out,
although the difference allowed is 8192. -/
theorem worn_picked : ¬Bounded smallConfig (twoWorn 20000 30000) .unknown := by
  intro hb
  have hlow := ((bounded_iff (twoWorn_sorted (by decide)) (show (twoWorn 20000 30000).free.first=some 0 from rfl)
    (show pickFree smallConfig (twoWorn 20000 30000) .unknown=some 1 by decide)).mp hb).1
  cases hlow

end ArdroneKernel.UbiWlPick
