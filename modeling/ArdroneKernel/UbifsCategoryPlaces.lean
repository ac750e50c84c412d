import ArdroneKernel.UbifsCategories
import Mathlib.Data.List.Nodup

/-!
# Places of LEB properties

Every properties in memory have one place, a slot of a heap or one in a list, and
the category bits say which. The operations on categories keep this, also
`ubifs_remove_from_cat` and `adjust_lpt_heap` after the properties have changed
in their place.
-/

namespace ArdroneKernel.UbifsCategories

open SlotHeap UbifsLprops Function

variable {c : Sizes} {s s' : State} {p : ℕ} {cat : Cat} {live : ℕ → Prop} {s₁ : State}

/-- Properties have a place in a category. -/
def In (s : State) (cat : Cat) (p : ℕ) : Prop :=
  if hasHeap cat then Has (s.heap cat) (s.cnt cat) p else p∈s.list cat

/-- The places of the properties in memory. -/
structure Places (c : Sizes) (s : State) (live : ℕ → Prop) : Prop where
  heaps : ∀ cat,hasHeap cat=true → IsHeap (s.val cat) (s.heap cat) (s.cnt cat)
  room : ∀ cat,hasHeap cat=true → s.cnt cat≤lptHeapSz
  nodup : ∀ cat,(s.list cat).Nodup
  mem : ∀ cat p,In s cat p ↔ live p∧(s.lprops p).flags.cat=cat
  fits : ∀ p,live p → hasHeap (s.lprops p).flags.cat=true →
    ubifsCategorizeLprops c.toLimits (s.lprops p)=(s.lprops p).flags.cat
  freeable : s.freeableCnt=(s.list .freeable).length

/-! ## What operations leave alone -/

/-- Properties but for their category bits. -/
def strip (lp : Lprops) : Lprops := withCat lp .uncat

/-- Only places and category bits have changed. -/
structure Moved (s s' : State) : Prop where
  lprops : ∀ p,strip (s'.lprops p)=strip (s.lprops p)
  lst : s'.lst=s.lst
  loaded : s'.loaded=s.loaded
  stored : s'.stored=s.stored

theorem Moved.refl : Moved s s := ⟨fun _ => rfl,rfl,rfl,rfl⟩

theorem Moved.trans {s'' : State} (h1 : Moved s s') (h2 : Moved s' s'') : Moved s s'' :=
  ⟨fun p => (h2.lprops p).trans (h1.lprops p),h2.lst.trans h1.lst,
    h2.loaded.trans h1.loaded,h2.stored.trans h1.stored⟩

theorem setCat_lprops (a : ℕ) : (s.setCat p cat).lprops a=
    if a=p then withCat (s.lprops p) cat else s.lprops a := by
  by_cases hap : a=p
  · rw [if_pos hap,hap]
    exact update_self _ _ _
  · rw [if_neg hap]
    exact update_of_ne hap _ _

theorem setCat_moved : Moved s (s.setCat p cat) where
  lprops := by
    intro a
    rw [setCat_lprops]
    by_cases hap : a=p
    · rw [if_pos hap,hap]
      rfl
    · rw [if_neg hap]
  lst := rfl
  loaded := rfl
  stored := rfl

theorem val_of_strip {lp lp' : Lprops} (h : strip lp'=strip lp) (cat : Cat) :
    getHeapCompVal lp' cat=getHeapCompVal lp cat := by
  have hval : ∀ lp,getHeapCompVal lp cat=getHeapCompVal (strip lp) cat := fun _ => by
    cases cat <;> rfl
  rw [hval,h,←hval]

theorem categorize_of_strip {lp lp' : Lprops} (h : strip lp'=strip lp) :
    ubifsCategorizeLprops c.toLimits lp'=ubifsCategorizeLprops c.toLimits lp := by
  have hcat : ∀ lp,ubifsCategorizeLprops c.toLimits lp=
    ubifsCategorizeLprops c.toLimits (strip lp) := fun _ => rfl
  rw [hcat,h,←hcat]

theorem Moved.val (hm : Moved s s') : s'.val=s.val := by
  funext cat a
  exact val_of_strip (hm.lprops a) cat

/-! ## Places that change -/

theorem In.onHeap (hcat : hasHeap cat=true) :
    In s cat p ↔ Has (s.heap cat) (s.cnt cat) p := by
  unfold In
  rw [if_pos hcat]

theorem In.onList (hcat : hasHeap cat=false) : In s cat p ↔ p∈s.list cat := by
  unfold In
  rw [if_neg (by rw [hcat]; exact Bool.false_ne_true)]

/-- Places in a category that is left alone. -/
theorem In.congr (harr : s'.arr cat=s.arr cat) (hcnt : s'.cnt cat=s.cnt cat)
    (hlist : s'.list cat=s.list cat) : In s' cat p ↔ In s cat p := by
  unfold In Has State.heap
  rw [harr,hcnt,hlist]

/-- A heap stays as it is when no entry of it is touched. -/
theorem Places.heaps_of (hp : Places c s live) (hcat : hasHeap cat=true)
    (harr : s'.arr cat=s.arr cat) (hcnt : s'.cnt cat=s.cnt cat)
    (hkept : ∀ a,live a → (s.lprops a).flags.cat=cat →
      s'.hpos a=s.hpos a∧s'.val cat a=s.val cat a) :
    IsHeap (s'.val cat) (s'.heap cat) (s'.cnt cat) := by
  have hlive : ∀ a,Has (s.heap cat) (s.cnt cat) a → s'.hpos a=s.hpos a∧s'.val cat a=s.val cat a :=
    fun a hhas => by
      have ⟨hla,hac⟩ := (hp.mem cat a).mp ((In.onHeap hcat).mpr hhas)
      exact hkept a hla hac
  rw [hcnt]
  refine (hp.heaps cat hcat).congr (fun k _ => ?_) (fun a hhas => (hlive a hhas).1)
    fun a hhas => (hlive a hhas).2
  change s'.arr cat k=s.arr cat k
  rw [harr]

/-- Places after properties without a place have got one. -/
theorem Places.mem_add (hp : Places c s live) (hnew : ¬live p)
    (hin : ∀ k a,In s' k a ↔ a=p∧k=cat∨In s k a)
    (hcats : ∀ a,(s'.lprops a).flags.cat=if a=p then cat else (s.lprops a).flags.cat)
    (k : Cat) (a : ℕ) : In s' k a ↔ (a=p∨live a)∧(s'.lprops a).flags.cat=k := by
  rw [hin,hcats,hp.mem]
  by_cases hap : a=p
  · rw [if_pos hap,hap]
    exact ⟨fun hh => ⟨Or.inl rfl,hh.elim (fun h => h.2.symm) fun h => absurd h.1 hnew⟩,
      fun hh => Or.inl ⟨rfl,hh.2.symm⟩⟩
  · rw [if_neg hap]
    exact ⟨fun hh => hh.elim (fun h => absurd h.1 hap) fun h => ⟨Or.inr h.1,h.2⟩,
      fun hh => Or.inr ⟨hh.1.resolve_left hap,hh.2⟩⟩

/-- Places after properties have lost theirs. -/
theorem Places.mem_drop (hp : Places c s live) (hin : ∀ k a,In s' k a ↔ In s k a∧a≠p)
    (hcats : ∀ a,a≠p → (s'.lprops a).flags.cat=(s.lprops a).flags.cat)
    (k : Cat) (a : ℕ) : In s' k a ↔ (live a∧a≠p)∧(s'.lprops a).flags.cat=k := by
  rw [hin,hp.mem]
  constructor
  · intro ⟨⟨hla,hac⟩,hap⟩
    exact ⟨⟨hla,hap⟩,(hcats a hap).trans hac⟩
  · intro ⟨⟨hla,hap⟩,hac⟩
    exact ⟨⟨hla,(hcats a hap).symm.trans hac⟩,hap⟩

/-! ## Lists -/

theorem Places.not_in (hp : Places c s live) (hnew : ¬live p) : ¬In s cat p := fun hin =>
  hnew ((hp.mem cat p).mp hin).1

/-- Properties without a place go to the list of a category. -/
theorem Places.listAdd (hp : Places c s live) (hnew : ¬live p) (hcat : hasHeap cat=false)
    {n : ℤ} (hn : n=s.freeableCnt+if cat=.freeable then 1 else 0) :
    Places c (({s with freeableCnt := n}.listAdd p cat).setCat p cat) fun a => a=p∨live a := by
  have hm0 : Moved s ({s with freeableCnt := n}.listAdd p cat) := ⟨fun _ => rfl,rfl,rfl,rfl⟩
  have hm : Moved s (({s with freeableCnt := n}.listAdd p cat).setCat p cat) :=
    hm0.trans setCat_moved
  have hlp : ∀ a,(({s with freeableCnt := n}.listAdd p cat).setCat p cat).lprops a=
      if a=p then withCat (s.lprops p) cat else s.lprops a := fun a => setCat_lprops a
  have hlist : (({s with freeableCnt := n}.listAdd p cat).setCat p cat).list=
      update s.list cat (p::s.list cat) := rfl
  have harr : (({s with freeableCnt := n}.listAdd p cat).setCat p cat).arr=s.arr := rfl
  have hcnt : (({s with freeableCnt := n}.listAdd p cat).setCat p cat).cnt=s.cnt := rfl
  have hpos : (({s with freeableCnt := n}.listAdd p cat).setCat p cat).hpos=
    update s.hpos p none := rfl
  have hfree : (({s with freeableCnt := n}.listAdd p cat).setCat p cat).freeableCnt=n := rfl
  generalize ({s with freeableCnt := n}.listAdd p cat).setCat p cat=s' at *
  have hnot : p∉s.list cat := fun hin => hp.not_in hnew ((In.onList hcat).mpr hin)
  have hin : ∀ k a,In s' k a ↔ a=p∧k=cat∨In s k a := by
    intro k a
    by_cases hk : k=cat
    · rw [hk,In.onList hcat,In.onList hcat,hlist,update_self,List.mem_cons]
      exact or_congr_left (and_iff_left rfl).symm
    · have hsame : In s' k a ↔ In s k a :=
        In.congr (by rw [harr]) (by rw [hcnt]) (by rw [hlist,update_of_ne hk])
      rw [hsame]
      exact ⟨Or.inr,fun hh => hh.resolve_left fun h => hk h.2⟩
  refine ⟨fun k hk => ?_,fun k hk => ?_,fun k => ?_,hp.mem_add hnew hin fun a => ?_,
    fun a ha hk => ?_,?_⟩
  · refine hp.heaps_of hk (by rw [harr]) (by rw [hcnt]) fun a ha _ => ⟨?_,by rw [hm.val]⟩
    rw [hpos,update_of_ne fun heq : a=p => hnew (heq▸ha)]
  · rw [hcnt]
    exact hp.room k hk
  · rw [hlist]
    by_cases hk : k=cat
    · rw [hk,update_self]
      exact List.nodup_cons.mpr ⟨hnot,hp.nodup cat⟩
    · rw [update_of_ne hk]
      exact hp.nodup k
  · rw [hlp]
    split <;> rfl
  · rw [hlp] at hk ⊢
    by_cases hap : a=p
    · rw [if_pos hap] at hk
      have hk : hasHeap cat=true := hk
      rw [hcat] at hk
      cases hk
    · rw [if_neg hap] at hk ⊢
      exact hp.fits a (ha.resolve_left hap) hk
  · rw [hfree,hn,hlist,hp.freeable]
    by_cases hk : cat=.freeable
    · rw [if_pos hk,hk,update_self,List.length_cons]
      rfl
    · rw [if_neg hk,update_of_ne (Ne.symm hk)]
      exact Int.add_zero _

/-! ## Heaps -/

/-- One heap has changed, with one entry that is in no other. -/
structure HeapStep (s s' : State) (cat : Cat) (p : ℕ) (has : ℕ → Prop) : Prop where
  result : Result (s'.val cat) (s.heap cat) (s'.heap cat) (s.cnt cat) (s'.cnt cat) p has
  other : ∀ k,k≠cat → s'.arr k=s.arr k∧s'.cnt k=s.cnt k
  val : ∀ k a,a≠p → s'.val k a=s.val k a
  room : s'.cnt cat≤lptHeapSz

section

variable {has live' : ℕ → Prop}

theorem HeapStep.heaps (hs : HeapStep s s' cat p has) (hp : Places c s live)
    (hcat : hasHeap cat=true) (hx : live p → (s.lprops p).flags.cat=cat) (k : Cat)
    (hk : hasHeap k=true) : IsHeap (s'.val k) (s'.heap k) (s'.cnt k) := by
  by_cases hkc : k=cat
  · rw [hkc]
    exact hs.result.heap
  · refine hp.heaps_of hk (hs.other k hkc).1 (hs.other k hkc).2 fun a ha hak => ?_
    have hap : a≠p := by
      intro heq
      rw [heq] at ha hak
      exact hkc (hak.symm.trans (hx ha))
    refine ⟨hs.result.other a hap fun hhas => ?_,hs.val k a hap⟩
    have hac := ((hp.mem cat a).mp ((In.onHeap hcat).mpr hhas)).2
    exact hkc (hak.symm.trans hac)

theorem HeapStep.roomAll (hs : HeapStep s s' cat p has) (hp : Places c s live) (k : Cat)
    (hk : hasHeap k=true) : s'.cnt k≤lptHeapSz := by
  by_cases hkc : k=cat
  · rw [hkc]
    exact hs.room
  · rw [(hs.other k hkc).2]
    exact hp.room k hk

/-- Only a heap has changed. -/
theorem HeapStep.places (hs : HeapStep s s' cat p has) (hp : Places c s live)
    (hcat : hasHeap cat=true) (hx : live p → (s.lprops p).flags.cat=cat)
    (hlist : s'.list=s.list) (hfree : s'.freeableCnt=s.freeableCnt)
    (hmem : ∀ k a,In s' k a ↔ live' a∧(s'.lprops a).flags.cat=k)
    (hfits : ∀ a,live' a → hasHeap (s'.lprops a).flags.cat=true →
      ubifsCategorizeLprops c.toLimits (s'.lprops a)=(s'.lprops a).flags.cat) :
    Places c s' live' := by
  refine ⟨hs.heaps hp hcat hx,hs.roomAll hp,fun k => ?_,hmem,hfits,?_⟩
  · rw [hlist]
    exact hp.nodup k
  · rw [hfree,hlist]
    exact hp.freeable

end

theorem setHeap_heap (h : Slots ℕ) (n : ℕ) : (s.setHeap cat h n).heap cat=h := by
  unfold State.heap State.setHeap
  dsimp only
  rw [update_self]

theorem setHeap_cnt (h : Slots ℕ) (n : ℕ) : (s.setHeap cat h n).cnt cat=n := update_self _ _ _

theorem setHeap_other (h : Slots ℕ) (n : ℕ) (k : Cat) (hk : k≠cat) :
    (s.setHeap cat h n).arr k=s.arr k∧(s.setHeap cat h n).cnt k=s.cnt k :=
  ⟨update_of_ne hk _ _,update_of_ne hk _ _⟩

/-- Only the properties at an address, and the statistics, may have changed. -/
structure Touched (s s' : State) (p : ℕ) : Prop where
  lprops : ∀ a,a≠p → s'.lprops a=s.lprops a
  hpos : s'.hpos=s.hpos
  arr : s'.arr=s.arr
  cnt : s'.cnt=s.cnt
  list : s'.list=s.list
  freeableCnt : s'.freeableCnt=s.freeableCnt

theorem Touched.refl : Touched s s p := ⟨fun _ _ => rfl,rfl,rfl,rfl,rfl,rfl⟩

theorem Touched.val (ht : Touched s s' p) (k : Cat) (a : ℕ) (hap : a≠p) :
    s'.val k a=s.val k a := by
  unfold State.val
  rw [ht.lprops a hap]

theorem Touched.heap (ht : Touched s s' p) (k : Cat) : s'.heap k=s.heap k := by
  unfold State.heap
  rw [ht.arr,ht.hpos]

/-- Properties that are not in a heap change. -/
theorem Places.touch (hp : Places c s live) (ht : Touched s s' p)
    (hx : live p → (s'.lprops p).flags.cat=(s.lprops p).flags.cat∧
      hasHeap (s.lprops p).flags.cat=false) : Places c s' live := by
  have hcats : ∀ a,live a → (s'.lprops a).flags.cat=(s.lprops a).flags.cat := by
    intro a ha
    by_cases hap : a=p
    · rw [hap] at ha ⊢
      exact (hx ha).1
    · rw [ht.lprops a hap]
  have hin : ∀ k a,In s' k a ↔ In s k a := fun k a =>
    In.congr (by rw [ht.arr]) (by rw [ht.cnt]) (by rw [ht.list])
  have hother : ∀ a,live a → hasHeap (s.lprops a).flags.cat=true → a≠p := by
    intro a ha hk hap
    rw [hap] at ha hk
    rw [(hx ha).2] at hk
    cases hk
  refine ⟨fun k hk => ?_,fun k hk => ?_,fun k => ?_,fun k a => ?_,fun a ha hk => ?_,?_⟩
  · exact hp.heaps_of hk (by rw [ht.arr]) (by rw [ht.cnt]) fun a ha hak =>
      ⟨by rw [ht.hpos],ht.val k a (hother a ha (hak▸hk))⟩
  · rw [ht.cnt]
    exact hp.room k hk
  · rw [ht.list]
    exact hp.nodup k
  · rw [hin,hp.mem]
    exact and_congr_right fun ha => by rw [hcats a ha]
  · rw [hcats a ha] at hk
    rw [ht.lprops a (hother a ha hk)]
    exact hp.fits a ha hk
  · rw [ht.freeableCnt,ht.list]
    exact hp.freeable

/-- Properties that have a place in a heap know their slot. -/
theorem Places.slot (hp : Places c s live) (hlive : live p)
    (hc : (s.lprops p).flags.cat=cat) (hcat : hasHeap cat=true) :
    ∃ hpos< s.cnt cat,s.hpos p=some hpos∧s.arr cat hpos=p := by
  have ⟨hpos,hlt,heq⟩ := (In.onHeap hcat).mp ((hp.mem cat p).mpr ⟨hlive,hc⟩)
  have hplaced := (hp.heaps cat hcat).placed hpos hlt
  rw [heq] at hplaced
  exact ⟨hpos,hlt,hplaced,heq⟩

/-- Properties leave a heap, also when they have just changed. -/
theorem Places.removeHeap (hp : Places c s live) (hlive : live p) (hc : (s.lprops p).flags.cat=cat)
    (hcat : hasHeap cat=true) (ht : Touched s s₁ p) : ∃ s',removeFromLptHeap s₁ p cat=some s'∧
      Places c s' (fun a => live a∧a≠p)∧Moved s₁ s' := by
  have ⟨hpos,hlt,hnoted,harr⟩ := hp.slot hlive hc hcat
  have hplace : hpos<s₁.cnt cat∧s₁.arr cat hpos=p := by
    rw [ht.cnt,ht.arr]
    exact ⟨hlt,harr⟩
  refine ⟨s₁.setHeap cat (remove (s₁.val cat) (s₁.cnt cat-1) hpos (s₁.heap cat))
    (s₁.cnt cat-1),?_,?_,⟨fun _ => rfl,rfl,rfl,rfl⟩⟩
  · unfold removeFromLptHeap
    rw [ht.hpos,hnoted]
    exact if_pos hplace
  have hcnt : s₁.cnt cat-1+1=s.cnt cat := by
    rw [ht.cnt]
    omega
  have hchanged : Changed (s₁.val cat) (s₁.heap cat) (s₁.cnt cat-1+1) hpos := by
    rw [hcnt,ht.heap]
    refine (hp.heaps cat hcat).changed hlt fun a ha => ?_
    exact ht.val cat a fun hap => ha (hap.trans harr.symm)
  have hres := remove_spec hchanged (by rw [hcnt]; exact hlt)
    (show (s₁.heap cat).arr hpos=p from hplace.2)
  rw [hcnt,ht.heap] at hres
  generalize hh : remove (s₁.val cat) (s₁.cnt cat-1) hpos (s.heap cat)=h' at hres
  rw [ht.heap,hh]
  have hheap : (s₁.setHeap cat h' (s₁.cnt cat-1)).heap cat=h' := setHeap_heap _ _
  have hcnt' : (s₁.setHeap cat h' (s₁.cnt cat-1)).cnt cat=s₁.cnt cat-1 :=
    setHeap_cnt _ _
  have hother : ∀ k,k≠cat → (s₁.setHeap cat h' (s₁.cnt cat-1)).arr k=s.arr k∧
      (s₁.setHeap cat h' (s₁.cnt cat-1)).cnt k=s.cnt k := by
    rw [←ht.arr,←ht.cnt]
    exact setHeap_other _ _
  have hval : (s₁.setHeap cat h' (s₁.cnt cat-1)).val=s₁.val := rfl
  have hlp : (s₁.setHeap cat h' (s₁.cnt cat-1)).lprops=s₁.lprops := rfl
  have hlist : (s₁.setHeap cat h' (s₁.cnt cat-1)).list=s.list := ht.list
  have hfree : (s₁.setHeap cat h' (s₁.cnt cat-1)).freeableCnt=s.freeableCnt := ht.freeableCnt
  generalize s₁.setHeap cat h' (s₁.cnt cat-1)=s' at *
  have hstep : HeapStep s s' cat p fun a => Has (s.heap cat) (s.cnt cat) a∧a≠p := by
    refine ⟨?_,hother,fun k a hap => by rw [hval,ht.val k a hap],?_⟩
    · rw [hval,hheap,hcnt']
      exact hres
    · have hroom := hp.room cat hcat
      omega
  have hin : ∀ k a,In s' k a ↔ In s k a∧a≠p := by
    intro k a
    by_cases hk : k=cat
    · rw [hk,In.onHeap hcat,In.onHeap hcat]
      exact hstep.result.mem a
    · have hsame : In s' k a ↔ In s k a :=
        In.congr (hother k hk).1 (hother k hk).2 (by rw [hlist])
      rw [hsame]
      refine ⟨fun hh => ⟨hh,fun hap => hk ?_⟩,fun hh => hh.1⟩
      have hak := ((hp.mem k a).mp hh).2
      rw [hap] at hak
      exact hak.symm.trans hc
  refine hstep.places hp hcat (fun _ => hc) hlist hfree (hp.mem_drop hin fun a hap => ?_)
    fun a ha hk => ?_
  · rw [hlp,ht.lprops a hap]
  · rw [hlp,ht.lprops a ha.2] at hk ⊢
    exact hp.fits a ha.1 hk

/-- Properties leave a list. -/
theorem Places.removeList (hp : Places c s live) (hlive : live p) (hc : (s.lprops p).flags.cat=cat)
    (hcat : hasHeap cat=false) (ht : Touched s s₁ p) {n : ℤ}
    (hn : n=s.freeableCnt-if cat=.freeable then 1 else 0) :
    ∃ s',({s₁ with freeableCnt := n}).listDel p cat=some s'∧
      Places c s' (fun a => live a∧a≠p)∧Moved s₁ s' := by
  have hmem := (In.onList hcat).mp ((hp.mem cat p).mpr ⟨hlive,hc⟩)
  refine ⟨{s₁ with
    freeableCnt := n
    list := update s₁.list cat ((s₁.list cat).erase p)},?_,?_,
    ⟨fun _ => rfl,rfl,rfl,rfl⟩⟩
  · have hmem' : p∈s₁.list cat := by rw [ht.list]; exact hmem
    exact if_pos hmem'
  rw [ht.list]
  generalize hs' : {s₁ with
    freeableCnt := n
    list := update s.list cat ((s.list cat).erase p)}=s'
  have hlist : s'.list=update s.list cat ((s.list cat).erase p) := by rw [←hs']
  have harr : s'.arr=s.arr := by rw [←hs',←ht.arr]
  have hcnt : s'.cnt=s.cnt := by rw [←hs',←ht.cnt]
  have hpos : s'.hpos=s.hpos := by rw [←hs',←ht.hpos]
  have hlp : s'.lprops=s₁.lprops := by rw [←hs']
  have hfree : s'.freeableCnt=n := by rw [←hs']
  have hin : ∀ k a,In s' k a ↔ In s k a∧a≠p := by
    intro k a
    by_cases hk : k=cat
    · rw [hk,In.onList hcat,In.onList hcat,hlist,update_self,
        (hp.nodup cat).mem_erase_iff]
      exact and_comm
    · have hsame : In s' k a ↔ In s k a :=
        In.congr (by rw [harr]) (by rw [hcnt]) (by rw [hlist,update_of_ne hk])
      rw [hsame]
      refine ⟨fun hh => ⟨hh,fun hap => hk ?_⟩,fun hh => hh.1⟩
      have hak := ((hp.mem k a).mp hh).2
      rw [hap] at hak
      exact hak.symm.trans hc
  refine ⟨fun k hk => ?_,fun k hk => ?_,fun k => ?_,hp.mem_drop hin fun a hap => ?_,
    fun a ha hk => ?_,?_⟩
  · refine hp.heaps_of hk (by rw [harr]) (by rw [hcnt]) fun a _ hak => ⟨by rw [hpos],?_⟩
    have hap : a≠p := by
      intro heq
      rw [heq,hc] at hak
      rw [←hak,hcat] at hk
      cases hk
    unfold State.val
    rw [hlp,ht.lprops a hap]
  · rw [hcnt]
    exact hp.room k hk
  · rw [hlist]
    by_cases hk : k=cat
    · rw [hk,update_self]
      exact (hp.nodup cat).erase p
    · rw [update_of_ne hk]
      exact hp.nodup k
  · rw [hlp,ht.lprops a hap]
  · rw [hlp,ht.lprops a ha.2] at hk ⊢
    exact hp.fits a ha.1 hk
  · rw [hfree,hn,hlist,hp.freeable]
    by_cases hk : cat=.freeable
    · rw [hk] at hmem
      have hlen := List.length_pos_of_mem hmem
      rw [if_pos hk,hk,update_self,List.length_erase_of_mem hmem]
      omega
    · rw [if_neg hk,update_of_ne (Ne.symm hk)]
      exact Int.sub_zero _

/-- `ubifs_remove_from_cat` finds the properties in their category. -/
theorem Places.remove (hp : Places c s live) (hlive : live p) (hc : (s.lprops p).flags.cat=cat)
    (ht : Touched s s₁ p) :
    ∃ s',ubifsRemoveFromCat s₁ p cat=some s'∧
      Places c s' (fun a => live a∧a≠p)∧Moved s₁ s' := by
  have hsame : {s₁ with freeableCnt := s₁.freeableCnt}=s₁ := rfl
  cases cat with
  | dirty => exact hp.removeHeap hlive hc rfl ht
  | dirtyIdx => exact hp.removeHeap hlive hc rfl ht
  | free => exact hp.removeHeap hlive hc rfl ht
  | freeable => exact hp.removeList hlive hc rfl ht (by rw [ht.freeableCnt]; rfl)
  | uncat =>
    exact hp.removeList hlive hc rfl ht (ht.freeableCnt.trans (Int.sub_zero _).symm)
  | empty =>
    exact hp.removeList hlive hc rfl ht (ht.freeableCnt.trans (Int.sub_zero _).symm)
  | frdiIdx =>
    exact hp.removeList hlive hc rfl ht (ht.freeableCnt.trans (Int.sub_zero _).symm)

/-- Properties without a place go to a heap that is not full. -/
theorem Places.push (hp : Places c s live) (hnew : ¬live p) (hcat : hasHeap cat=true)
    (hroom : s.cnt cat<lptHeapSz)
    (hfit : ubifsCategorizeLprops c.toLimits (s.lprops p)=cat) :
    Places c ((s.setHeap cat (moveUp (s.val cat) p (s.cnt cat) (s.cnt cat)
      ((s.heap cat).put (s.cnt cat) p)) (s.cnt cat+1)).setCat p cat) fun a => a=p∨live a := by
  have hnot : ¬Has (s.heap cat) (s.cnt cat) p := fun hhas =>
    hp.not_in hnew ((In.onHeap hcat).mpr hhas)
  have hres := push_spec (hp.heaps cat hcat) hnot
  generalize moveUp (s.val cat) p (s.cnt cat) (s.cnt cat)
    ((s.heap cat).put (s.cnt cat) p)=h' at hres
  have hm0 : Moved s (s.setHeap cat h' (s.cnt cat+1)) := ⟨fun _ => rfl,rfl,rfl,rfl⟩
  have hm : Moved s ((s.setHeap cat h' (s.cnt cat+1)).setCat p cat) := hm0.trans setCat_moved
  have hlp : ∀ a,((s.setHeap cat h' (s.cnt cat+1)).setCat p cat).lprops a=
      if a=p then withCat (s.lprops p) cat else s.lprops a := fun a => setCat_lprops a
  have hheap : ((s.setHeap cat h' (s.cnt cat+1)).setCat p cat).heap cat=h' :=
    setHeap_heap h' (s.cnt cat+1)
  have hcnt : ((s.setHeap cat h' (s.cnt cat+1)).setCat p cat).cnt cat=s.cnt cat+1 :=
    setHeap_cnt h' _
  have hother : ∀ k,k≠cat → ((s.setHeap cat h' (s.cnt cat+1)).setCat p cat).arr k=s.arr k∧
    ((s.setHeap cat h' (s.cnt cat+1)).setCat p cat).cnt k=s.cnt k :=
    setHeap_other h' (s.cnt cat+1)
  have hlist : ((s.setHeap cat h' (s.cnt cat+1)).setCat p cat).list=s.list := rfl
  have hfree : ((s.setHeap cat h' (s.cnt cat+1)).setCat p cat).freeableCnt=s.freeableCnt := rfl
  generalize (s.setHeap cat h' (s.cnt cat+1)).setCat p cat=s' at *
  have hstep : HeapStep s s' cat p fun a => a=p∨Has (s.heap cat) (s.cnt cat) a := by
    refine ⟨?_,hother,fun k a _ => by rw [hm.val],?_⟩
    · rw [hm.val,hheap,hcnt]
      exact hres
    · rw [hcnt]
      exact hroom
  have hin : ∀ k a,In s' k a ↔ a=p∧k=cat∨In s k a := by
    intro k a
    by_cases hk : k=cat
    · rw [hk,In.onHeap hcat,In.onHeap hcat,hstep.result.mem]
      exact or_congr_left (and_iff_left rfl).symm
    · have hsame : In s' k a ↔ In s k a :=
        In.congr (hother k hk).1 (hother k hk).2 (by rw [hlist])
      rw [hsame]
      exact ⟨Or.inr,fun hh => hh.resolve_left fun h => hk h.2⟩
  refine hstep.places hp hcat (fun hl => absurd hl hnew) hlist hfree
    (hp.mem_add hnew hin fun a => ?_) fun a ha hk => ?_
  · rw [hlp]
    split <;> rfl
  · rw [categorize_of_strip (hm.lprops a)]
    rw [hlp] at hk ⊢
    by_cases hap : a=p
    · rw [if_pos hap,hap]
      exact hfit
    · rw [if_neg hap] at hk ⊢
      exact hp.fits a (ha.resolve_left hap) hk

/-- The heap is full, and properties without a place take the slot of others of
less value, which become uncategorized. -/
theorem Places.evict (hp : Places c s live) (hnew : ¬live p) (hcat : hasHeap cat=true) {i q : ℕ}
    (hi : i<s.cnt cat) (hq : s.arr cat i=q) (hgt : s.val cat q<s.val cat p)
    (hfit : ubifsCategorizeLprops c.toLimits (s.lprops p)=cat)
    (hs1 : s₁=(s.setCat q .uncat).listAdd q .uncat) :
    Places c ((s₁.setHeap cat (moveUp (s₁.val cat) p i i ((s₁.heap cat).put i p))
      (s₁.cnt cat)).setCat p cat) (fun a => a=p∨live a)∧
    Moved s ((s₁.setHeap cat (moveUp (s₁.val cat) p i i ((s₁.heap cat).put i p))
      (s₁.cnt cat)).setCat p cat) := by
  have hm1 : Moved s s₁ := by
    rw [hs1]
    exact setCat_moved.trans ⟨fun _ => rfl,rfl,rfl,rfl⟩
  have hnot : ¬Has (s.heap cat) (s.cnt cat) p := fun hhas =>
    hp.not_in hnew ((In.onHeap hcat).mpr hhas)
  have hqin : Has (s.heap cat) (s.cnt cat) q := ⟨i,hi,hq⟩
  have ⟨hqlive,hqcat⟩ := (hp.mem cat q).mp ((In.onHeap hcat).mpr hqin)
  have hpq : p≠q := fun heq => hnew (heq▸hqlive)
  have hlp1 : ∀ a,s₁.lprops a=if a=q then withCat (s.lprops q) .uncat else s.lprops a := by
    rw [hs1]
    exact fun a => setCat_lprops a
  have hcnt1 : s₁.cnt=s.cnt := by rw [hs1]; rfl
  have harr1 : s₁.arr=s.arr := by rw [hs1]; rfl
  have hlist1 : s₁.list=update s.list .uncat (q::s.list .uncat) := by rw [hs1]; rfl
  have hfree1 : s₁.freeableCnt=s.freeableCnt := by rw [hs1]; rfl
  have hpos1 : ∀ a,a≠q → s₁.hpos a=s.hpos a := by
    rw [hs1]
    exact fun a ha => update_of_ne ha _ _
  have harr : (s₁.heap cat).arr=(s.heap cat).arr := congrFun harr1 cat
  have hres := evict_spec (hp.heaps cat hcat) hi hnot
    (by rw [show (s.heap cat).arr i=q from hq]; exact hgt)
    harr fun a ha => hpos1 a fun haq => ha (haq.trans hq.symm)
  rw [show (s.heap cat).arr i=q from hq,←hm1.val,←congrFun hcnt1 cat] at hres
  generalize moveUp (s₁.val cat) p i i ((s₁.heap cat).put i p)=h' at hres ⊢
  have hm2 : Moved s₁ (s₁.setHeap cat h' (s₁.cnt cat)) := ⟨fun _ => rfl,rfl,rfl,rfl⟩
  have hm : Moved s ((s₁.setHeap cat h' (s₁.cnt cat)).setCat p cat) :=
    (hm1.trans hm2).trans setCat_moved
  refine ⟨?_,hm⟩
  have hlp : ∀ a,((s₁.setHeap cat h' (s₁.cnt cat)).setCat p cat).lprops a=
      if a=p then withCat (s₁.lprops p) cat else s₁.lprops a := fun a => setCat_lprops a
  have hheap : ((s₁.setHeap cat h' (s₁.cnt cat)).setCat p cat).heap cat=h' :=
    setHeap_heap h' (s₁.cnt cat)
  have hcnt : ((s₁.setHeap cat h' (s₁.cnt cat)).setCat p cat).cnt cat=s₁.cnt cat :=
    setHeap_cnt h' _
  have hother : ∀ k,k≠cat → ((s₁.setHeap cat h' (s₁.cnt cat)).setCat p cat).arr k=s.arr k∧
      ((s₁.setHeap cat h' (s₁.cnt cat)).setCat p cat).cnt k=s.cnt k := by
    rw [←harr1,←hcnt1]
    exact setHeap_other h' (s₁.cnt cat)
  have hlist : ((s₁.setHeap cat h' (s₁.cnt cat)).setCat p cat).list=s₁.list := rfl
  have hfree : ((s₁.setHeap cat h' (s₁.cnt cat)).setCat p cat).freeableCnt=
    s₁.freeableCnt := rfl
  generalize (s₁.setHeap cat h' (s₁.cnt cat)).setCat p cat=s' at *
  have hcatOf : ∀ a,(s'.lprops a).flags.cat=
      if a=p then cat else if a=q then .uncat else (s.lprops a).flags.cat := by
    intro a
    rw [hlp,hlp1 a]
    split
    · rfl
    · split <;> rfl
  have hstep : HeapStep s s' cat p
      fun a => a=p∨Has (s.heap cat) (s₁.cnt cat) a∧a≠q := by
    refine ⟨?_,hother,fun k a _ => by rw [hm.val],?_⟩
    · rw [hm.val,hheap,hcnt,←hm1.val,←congrFun hcnt1 cat]
      exact hres
    · rw [hcnt,hcnt1]
      exact hp.room cat hcat
  have hqnot : q∉s.list .uncat := fun hin => by
    have hcq := ((hp.mem .uncat q).mp ((In.onList rfl).mpr hin)).2
    rw [hqcat] at hcq
    rw [hcq] at hcat
    cases hcat
  have hin : ∀ k a,In s' k a ↔ a=p∧k=cat∨a=q∧k=.uncat∨In s k a∧a≠q := by
    intro k a
    by_cases hk : k=cat
    · have hku : cat≠.uncat := fun heq => by rw [heq] at hcat; cases hcat
      rw [hk,In.onHeap hcat,In.onHeap hcat,hstep.result.mem,hcnt1]
      refine or_congr (and_iff_left rfl).symm ⟨Or.inr,fun hh => hh.resolve_left fun h => hku h.2⟩
    · by_cases hku : k=.uncat
      · rw [hku,In.onList rfl,In.onList rfl,hlist,hlist1,update_self,List.mem_cons]
        constructor
        · rintro (haq|hmem)
          · exact Or.inr (Or.inl ⟨haq,rfl⟩)
          · exact Or.inr (Or.inr ⟨hmem,fun haq => hqnot (haq▸hmem)⟩)
        · rintro (hh|hh|hh)
          · exact absurd (hku.trans hh.2) hk
          · exact Or.inl hh.1
          · exact Or.inr hh.1
      · have hsame : In s' k a ↔ In s k a :=
          In.congr (hother k hk).1 (hother k hk).2
            (by rw [hlist,hlist1,update_of_ne hku])
        rw [hsame]
        refine ⟨fun hh => Or.inr (Or.inr ⟨hh,fun haq => hk ?_⟩),?_⟩
        · have hak := ((hp.mem k a).mp hh).2
          rw [haq] at hak
          exact hak.symm.trans hqcat
        · rintro (hh|hh|hh)
          · exact absurd hh.2 hk
          · exact absurd hh.2 hku
          · exact hh.1
  refine ⟨hstep.heaps hp hcat fun hl => absurd hl hnew,hstep.roomAll hp,fun k => ?_,
    fun k a => ?_,fun a ha hk => ?_,?_⟩
  · rw [hlist,hlist1]
    by_cases hku : k=.uncat
    · rw [hku,update_self]
      exact List.nodup_cons.mpr ⟨hqnot,hp.nodup .uncat⟩
    · rw [update_of_ne hku]
      exact hp.nodup k
  · rw [hin,hcatOf,hp.mem]
    by_cases hap : a=p
    · rw [if_pos hap,hap]
      refine ⟨fun hh => ⟨Or.inl rfl,?_⟩,fun hh => Or.inl ⟨rfl,hh.2.symm⟩⟩
      rcases hh with hh|hh|hh
      · exact hh.2.symm
      · exact absurd hh.1 hpq
      · exact absurd hh.1.1 hnew
    · rw [if_neg hap]
      by_cases haq : a=q
      · rw [if_pos haq,haq]
        refine ⟨fun hh => ⟨Or.inr hqlive,?_⟩,fun hh => Or.inr (Or.inl ⟨rfl,hh.2.symm⟩)⟩
        rcases hh with hh|hh|hh
        · exact absurd hh.1.symm hpq
        · exact hh.2.symm
        · exact absurd rfl hh.2
      · rw [if_neg haq]
        refine ⟨fun hh => ?_,fun hh => Or.inr (Or.inr ⟨⟨hh.1.resolve_left hap,hh.2⟩,haq⟩)⟩
        rcases hh with hh|hh|hh
        · exact absurd hh.1 hap
        · exact absurd hh.1 haq
        · exact ⟨Or.inr hh.1.1,hh.1.2⟩
  · rw [categorize_of_strip (hm.lprops a)]
    rw [hcatOf] at hk ⊢
    by_cases hap : a=p
    · rw [if_pos hap,hap]
      exact hfit
    · rw [if_neg hap] at hk ⊢
      by_cases haq : a=q
      · rw [if_pos haq] at hk
        cases hk
      · rw [if_neg haq] at hk ⊢
        exact hp.fits a (ha.resolve_left hap) hk
  · rw [hfree,hfree1,hlist,hlist1,update_of_ne (by decide)]
    exact hp.freeable

theorem bottomSlot_lt : bottomSlot p<lptHeapSz := by
  have hmod := Nat.mod_lt (p>>>4) (show 0<lptHeapSz/2 by decide)
  unfold bottomSlot
  omega

/-- `add_to_lpt_heap` and what `ubifs_add_to_cat` does with its answer. -/
theorem Places.addHeap (hp : Places c s live) (hnew : ¬live p) (hcat : hasHeap cat=true)
    (hfit : ubifsCategorizeLprops c.toLimits (s.lprops p)=cat) {s' : State}
    (hs' : s'=match addToLptHeap s p cat with
      | (true,s) => s.setCat p cat
      | (false,s) => (s.listAdd p .uncat).setCat p .uncat) :
    Places c s' (fun a => a=p∨live a)∧Moved s s' := by
  unfold addToLptHeap at hs'
  by_cases hfull : lptHeapSz≤ s.cnt cat
  · rw [if_pos hfull] at hs'
    by_cases hgt : s.val cat (s.arr cat (bottomSlot p))<s.val cat p
    · rw [if_pos hgt] at hs'
      rw [hs']
      exact hp.evict hnew hcat (bottomSlot_lt.trans_le hfull) rfl hgt hfit rfl
    · rw [if_neg hgt] at hs'
      rw [hs']
      have hm : Moved s (s.listAdd p .uncat) := ⟨fun _ => rfl,rfl,rfl,rfl⟩
      exact ⟨hp.listAdd hnew rfl (Int.add_zero _).symm,hm.trans setCat_moved⟩
  · rw [if_neg hfull] at hs'
    rw [hs']
    refine ⟨hp.push hnew hcat (not_le.mp hfull) hfit,?_⟩
    have hm : ∀ (h : Slots ℕ) (n : ℕ),Moved s (s.setHeap cat h n) :=
      fun _ _ => ⟨fun _ => rfl,rfl,rfl,rfl⟩
    exact (hm _ _).trans setCat_moved

/-- `ubifs_add_to_cat` gives properties a place. -/
theorem Places.add (hp : Places c s live) (hnew : ¬live p)
    (hfit : hasHeap cat=true → ubifsCategorizeLprops c.toLimits (s.lprops p)=cat) :
    Places c (ubifsAddToCat s p cat) (fun a => a=p∨live a)∧Moved s (ubifsAddToCat s p cat) := by
  have hlist : ∀ {k : Cat} {n : ℤ},hasHeap k=false →
      n=s.freeableCnt+(if k=.freeable then 1 else 0) →
      Places c (({s with freeableCnt := n}.listAdd p k).setCat p k) (fun a => a=p∨live a)∧
      Moved s (({s with freeableCnt := n}.listAdd p k).setCat p k) := by
    intro k n hk hn
    have hm : Moved s ({s with freeableCnt := n}.listAdd p k) := ⟨fun _ => rfl,rfl,rfl,rfl⟩
    exact ⟨hp.listAdd hnew hk hn,hm.trans setCat_moved⟩
  cases cat with
  | dirty => exact hp.addHeap hnew rfl (hfit rfl) rfl
  | dirtyIdx => exact hp.addHeap hnew rfl (hfit rfl) rfl
  | free => exact hp.addHeap hnew rfl (hfit rfl) rfl
  | freeable => exact hlist rfl rfl
  | uncat => exact hlist rfl (Int.add_zero _).symm
  | empty => exact hlist rfl (Int.add_zero _).symm
  | frdiIdx => exact hlist rfl (Int.add_zero _).symm

/-- Properties that change in place get the place of their new category. -/
theorem Places.move (hp : Places c s live) (hlive : live p) (hc : (s.lprops p).flags.cat=cat)
    (ht : Touched s s₁ p) {newCat : Cat}
    (hfit : hasHeap newCat=true → ubifsCategorizeLprops c.toLimits (s₁.lprops p)=newCat) :
    ∃ s',((ubifsRemoveFromCat s₁ p cat).map fun s => ubifsAddToCat s p newCat)=some s'∧
      Places c s' live∧Moved s₁ s' := by
  have ⟨s2,hrem,hp2,hm2⟩ := hp.remove hlive hc ht
  have hnew : ¬(live p∧p≠p) := fun hh => hh.2 rfl
  have hfit2 : hasHeap newCat=true →
      ubifsCategorizeLprops c.toLimits (s2.lprops p)=newCat := fun hh => by
    rw [categorize_of_strip (hm2.lprops p)]
    exact hfit hh
  have ⟨hp3,hm3⟩ := hp2.add hnew hfit2
  refine ⟨ubifsAddToCat s2 p newCat,by rw [hrem]; rfl,?_,hm2.trans hm3⟩
  have hall : (fun a => a=p∨live a∧a≠p)=live := by
    funext a
    refine propext ⟨fun hh => hh.elim (fun hap => hap▸hlive) fun h => h.1,fun hh => ?_⟩
    by_cases hap : a=p
    · exact Or.inl hap
    · exact Or.inr ⟨hh,hap⟩
  rw [hall] at hp3
  exact hp3

/-- `adjust_lpt_heap` keeps changed properties in their heap. -/
theorem Places.adjust (hp : Places c s live) (hlive : live p) (hc : (s.lprops p).flags.cat=cat)
    (hcat : hasHeap cat=true) (ht : Touched s s₁ p) (hkeep : (s₁.lprops p).flags.cat=cat)
    (hfit : ubifsCategorizeLprops c.toLimits (s₁.lprops p)=cat) :
    ∃ s',adjustLptHeap s₁ p cat=some s'∧Places c s' live∧Moved s₁ s' := by
  have ⟨hpos,hlt,hnoted,harr⟩ := hp.slot hlive hc hcat
  refine ⟨s₁.setHeap cat (SlotHeap.adjust (s₁.val cat) p (s₁.cnt cat) hpos (s₁.heap cat))
    (s₁.cnt cat),?_,?_,⟨fun _ => rfl,rfl,rfl,rfl⟩⟩
  · unfold adjustLptHeap
    rw [ht.hpos,hnoted]
  have hchanged : Changed (s₁.val cat) (s₁.heap cat) (s₁.cnt cat) hpos := by
    rw [ht.heap,ht.cnt]
    refine (hp.heaps cat hcat).changed hlt fun a ha => ?_
    exact ht.val cat a fun hap => ha (hap.trans harr.symm)
  have ⟨hheap,hre⟩ := adjust_spec hchanged (by rw [ht.cnt]; exact hlt)
    (show s₁.arr cat hpos=p by rw [ht.arr]; exact harr)
  generalize SlotHeap.adjust (s₁.val cat) p (s₁.cnt cat) hpos (s₁.heap cat)=h' at hheap hre ⊢
  have hheap' : (s₁.setHeap cat h' (s₁.cnt cat)).heap cat=h' := setHeap_heap _ _
  have hcnt : (s₁.setHeap cat h' (s₁.cnt cat)).cnt cat=s.cnt cat :=
    (setHeap_cnt _ _).trans (congrFun ht.cnt cat)
  have hother : ∀ k,k≠cat → (s₁.setHeap cat h' (s₁.cnt cat)).arr k=s.arr k∧
      (s₁.setHeap cat h' (s₁.cnt cat)).cnt k=s.cnt k := by
    rw [←ht.arr,←ht.cnt]
    exact setHeap_other _ _
  have hval : (s₁.setHeap cat h' (s₁.cnt cat)).val=s₁.val := rfl
  have hlp : (s₁.setHeap cat h' (s₁.cnt cat)).lprops=s₁.lprops := rfl
  have hlist : (s₁.setHeap cat h' (s₁.cnt cat)).list=s.list := ht.list
  have hfree : (s₁.setHeap cat h' (s₁.cnt cat)).freeableCnt=s.freeableCnt := ht.freeableCnt
  rw [ht.heap,ht.cnt] at hre
  rw [ht.cnt] at hheap
  generalize s₁.setHeap cat h' (s₁.cnt cat)=s' at *
  have hstep : HeapStep s s' cat p (Has (s.heap cat) (s.cnt cat)) := by
    refine ⟨?_,hother,fun k a hap => by rw [hval,ht.val k a hap],?_⟩
    · rw [hval,hheap',hcnt]
      exact ⟨hheap,hre.mem,fun a _ ha => hre.other a ha⟩
    · rw [hcnt]
      exact hp.room cat hcat
  have hin : ∀ k a,In s' k a ↔ In s k a := by
    intro k a
    by_cases hk : k=cat
    · rw [hk,In.onHeap hcat,In.onHeap hcat]
      exact hstep.result.mem a
    · exact In.congr (hother k hk).1 (hother k hk).2 (by rw [hlist])
  have hcats : ∀ a,(s'.lprops a).flags.cat=(s.lprops a).flags.cat := by
    intro a
    rw [hlp]
    by_cases hap : a=p
    · rw [hap,hkeep,hc]
    · rw [ht.lprops a hap]
  refine hstep.places hp hcat (fun _ => hc) hlist hfree (fun k a => ?_) fun a ha hk => ?_
  · rw [hin,hcats]
    exact hp.mem k a
  · rw [hlp] at hk ⊢
    by_cases hap : a=p
    · rw [hap,hkeep]
      exact hfit
    · rw [ht.lprops a hap] at hk ⊢
      exact hp.fits a ha hk

/-- `change_category` keeps the places, whatever has changed in the properties
but their category bits. -/
theorem Places.changeCategory (hp : Places c s live) (hlive : live p) (ht : Touched s s₁ p)
    (hkeep : (s₁.lprops p).flags.cat=(s.lprops p).flags.cat) :
    ∃ s',changeCategory c s₁ p=some s'∧Places c s' live∧Moved s₁ s' := by
  unfold UbifsCategories.changeCategory
  dsimp only
  by_cases hsame : (s₁.lprops p).flags.cat=ubifsCategorizeLprops c.toLimits (s₁.lprops p)
  · rw [if_pos hsame,←hsame]
    by_cases hcat : hasHeap (s₁.lprops p).flags.cat=true
    · rw [if_pos hcat]
      exact hp.adjust hlive hkeep.symm hcat ht rfl hsame.symm
    · rw [if_neg hcat]
      refine ⟨s₁,rfl,hp.touch ht fun _ => ⟨hkeep,?_⟩,Moved.refl⟩
      rw [←hkeep]
      exact Bool.eq_false_iff.mpr hcat
  · rw [if_neg hsame,hkeep]
    exact hp.move hlive rfl ht fun _ => rfl

/-- `ubifs_ensure_cat` keeps the places. -/
theorem Places.ensure (hp : Places c s live) (hlive : live p) :
    ∃ s',ubifsEnsureCat c s p=some s'∧Places c s' live∧Moved s s' := by
  unfold ubifsEnsureCat
  by_cases hun : (s.lprops p).flags.cat≠.uncat
  · rw [if_pos hun]
    exact ⟨s,rfl,hp,Moved.refl⟩
  rw [if_neg hun]
  by_cases hnone : ubifsCategorizeLprops c.toLimits (s.lprops p)=.uncat
  · rw [if_pos hnone]
    exact ⟨s,rfl,hp,Moved.refl⟩
  · rw [if_neg hnone]
    exact hp.move hlive (not_not.mp hun) Touched.refl fun _ => rfl

/-! ## Copies -/

/-- Places after a copy has taken that of its original. -/
theorem Places.mem_replace (hp : Places c s live) (hlive : live p) {p' : ℕ} (hnew : ¬live p')
    (hc : (s.lprops p).flags.cat=cat)
    (hin : ∀ k a,In s' k a ↔ a=p'∧k=cat∨In s k a∧a≠p)
    (hlp : ∀ a,s'.lprops a=if a=p' then s.lprops p else s.lprops a) (k : Cat) (a : ℕ) :
    In s' k a ↔ (a=p'∨live a∧a≠p)∧(s'.lprops a).flags.cat=k := by
  rw [hin,hlp,hp.mem]
  by_cases hap : a=p'
  · rw [if_pos hap,hap,hc]
    exact ⟨fun hh => ⟨Or.inl rfl,hh.elim (fun h => h.2.symm) fun h => absurd h.1.1 hnew⟩,
      fun hh => Or.inl ⟨rfl,hh.2.symm⟩⟩
  · rw [if_neg hap]
    exact ⟨fun hh => hh.elim (fun h => absurd h.1 hap) fun h => ⟨Or.inr ⟨h.1.1,h.2⟩,h.1.2⟩,
      fun hh => Or.inr ⟨⟨(hh.1.resolve_left hap).1,hh.2⟩,(hh.1.resolve_left hap).2⟩⟩

/-- A copy of properties, with the slot or the pointers that they have. -/
structure Copied (s s₁ : State) (p p' : ℕ) : Prop where
  lprops : ∀ a,s₁.lprops a=if a=p' then s.lprops p else s.lprops a
  hpos : s₁.hpos=update s.hpos p' (s.hpos p)
  arr : s₁.arr=s.arr
  cnt : s₁.cnt=s.cnt
  list : s₁.list=s.list
  freeableCnt : s₁.freeableCnt=s.freeableCnt

/-- What `ubifs_replace_cat` leaves alone. -/
structure Replaced (s s' : State) : Prop where
  lprops : s'.lprops=s.lprops
  lst : s'.lst=s.lst
  loaded : s'.loaded=s.loaded
  stored : s'.stored=s.stored

theorem Places.replaceHeap (hp : Places c s live) (hlive : live p) {p' : ℕ} (hnew : ¬live p')
    (hc : (s.lprops p).flags.cat=cat) (hcat : hasHeap cat=true) (ht : Copied s s₁ p p') :
    ∃ s',lptHeapReplace s₁ p' cat=some s'∧
      Places c s' (fun a => a=p'∨live a∧a≠p)∧Replaced s₁ s' := by
  have ⟨hpos,hlt,hnoted,harr⟩ := hp.slot hlive hc hcat
  refine ⟨{s₁ with
    arr := update s₁.arr cat (update (s₁.arr cat) hpos p')},?_,?_,
    ⟨rfl,rfl,rfl,rfl⟩⟩
  · unfold lptHeapReplace
    rw [ht.hpos,update_self,hnoted]
  have hnot : ¬Has (s.heap cat) (s.cnt cat) p' := fun hhas =>
    hp.not_in hnew ((In.onHeap hcat).mpr hhas)
  have hval : ∀ k a,a≠p' → s₁.val k a=s.val k a := by
    intro k a hap
    unfold State.val
    rw [ht.lprops,if_neg hap]
  have hheap1 : IsHeap (s₁.val cat) (s.heap cat) (s.cnt cat) :=
    (hp.heaps cat hcat).congr (fun _ _ => rfl) (fun _ _ => rfl) fun a hhas =>
      hval cat a fun hap => hnot (hap▸hhas)
  have hpp : p≠p' := fun heq => hnew (heq▸hlive)
  have hres := replace_spec (x := p') hheap1 hlt hnot (by
    rw [show (s.heap cat).arr hpos=p from harr]
    unfold State.val
    rw [ht.lprops,ht.lprops,if_pos rfl,if_neg hpp])
  rw [show (s.heap cat).arr hpos=p from harr] at hres
  have hput : (s.heap cat).put hpos p'=⟨update (s₁.arr cat) hpos p',s₁.hpos⟩ := by
    unfold Slots.put State.heap
    rw [ht.arr,ht.hpos,hnoted]
  rw [hput] at hres
  generalize hs' : {s₁ with
    arr := update s₁.arr cat (update (s₁.arr cat) hpos p')}=s'
  have harr' : s'.arr cat=update (s₁.arr cat) hpos p' := by
    rw [←hs']
    exact update_self _ _ _
  have hother : ∀ k,k≠cat → s'.arr k=s.arr k∧s'.cnt k=s.cnt k := by
    intro k hk
    rw [←hs',←ht.arr,←ht.cnt]
    exact ⟨update_of_ne hk _ _,rfl⟩
  have hcnt : s'.cnt=s.cnt := by rw [←hs',←ht.cnt]
  have hposn : s'.hpos=s₁.hpos := by rw [←hs']
  have hlp : s'.lprops=s₁.lprops := by rw [←hs']
  have hlist : s'.list=s.list := by rw [←hs',←ht.list]
  have hfree : s'.freeableCnt=s.freeableCnt := by rw [←hs',←ht.freeableCnt]
  have hstep : HeapStep s s' cat p' fun a => a=p'∨Has (s.heap cat) (s.cnt cat) a∧a≠p := by
    have hval' : s'.val=s₁.val := by
      unfold State.val
      rw [hlp]
    have hheap' : s'.heap cat=⟨update (s₁.arr cat) hpos p',s₁.hpos⟩ := by
      unfold State.heap
      rw [harr',hposn]
    refine ⟨?_,hother,fun k a hap => by rw [hval',hval k a hap],?_⟩
    · rw [hval',hheap',hcnt]
      exact hres
    · rw [hcnt]
      exact hp.room cat hcat
  have hin : ∀ k a,In s' k a ↔ a=p'∧k=cat∨In s k a∧a≠p := by
    intro k a
    by_cases hk : k=cat
    · rw [hk,In.onHeap hcat,In.onHeap hcat,hstep.result.mem]
      exact or_congr_left (and_iff_left rfl).symm
    · have hsame : In s' k a ↔ In s k a :=
        In.congr (hother k hk).1 (hother k hk).2 (by rw [hlist])
      rw [hsame]
      refine ⟨fun hh => Or.inr ⟨hh,fun hap => hk ?_⟩,fun hh =>
        (hh.resolve_left fun h => hk h.2).1⟩
      have hak := ((hp.mem k a).mp hh).2
      rw [hap] at hak
      exact hak.symm.trans hc
  have hlp' : ∀ a,s'.lprops a=if a=p' then s.lprops p else s.lprops a := by
    rw [hlp]
    exact ht.lprops
  refine hstep.places hp hcat (fun hl => absurd hl hnew) hlist hfree
    (hp.mem_replace hlive hnew hc hin hlp') fun a ha hk => ?_
  rw [hlp'] at hk ⊢
  by_cases hap : a=p'
  · rw [if_pos hap] at hk ⊢
    exact hp.fits p hlive hk
  · rw [if_neg hap] at hk ⊢
    exact hp.fits a (ha.resolve_left hap).1 hk

theorem Places.replaceList (hp : Places c s live) (hlive : live p) {p' : ℕ} (hnew : ¬live p')
    (hc : (s.lprops p).flags.cat=cat) (hcat : hasHeap cat=false) (ht : Copied s s₁ p p') :
    ∃ s',s₁.listReplace p p' cat=some s'∧
      Places c s' (fun a => a=p'∨live a∧a≠p)∧Replaced s₁ s' := by
  have hmem := (In.onList hcat).mp ((hp.mem cat p).mpr ⟨hlive,hc⟩)
  have hnot : p'∉s.list cat := fun hin => hp.not_in hnew ((In.onList hcat).mpr hin)
  refine ⟨{s₁ with
    list := update s₁.list cat ((s₁.list cat).map fun q => if q=p then p' else q)
    hpos := update s₁.hpos p' none},?_,?_,⟨rfl,rfl,rfl,rfl⟩⟩
  · have hmem' : p∈s₁.list cat := by rw [ht.list]; exact hmem
    exact if_pos hmem'
  rw [ht.list]
  generalize hs' : {s₁ with
    list := update s.list cat ((s.list cat).map fun q => if q=p then p' else q)
    hpos := update s₁.hpos p' none}=s'
  have hlist : s'.list=update s.list cat
      ((s.list cat).map fun q => if q=p then p' else q) := by rw [←hs']
  have harr : s'.arr=s.arr := by rw [←hs',←ht.arr]
  have hcnt : s'.cnt=s.cnt := by rw [←hs',←ht.cnt]
  have hpos : ∀ a,a≠p' → s'.hpos a=s.hpos a := by
    intro a hap
    rw [←hs']
    dsimp only
    rw [update_of_ne hap,ht.hpos,update_of_ne hap]
  have hfree : s'.freeableCnt=s.freeableCnt := by rw [←hs',←ht.freeableCnt]
  have hlp : ∀ a,s'.lprops a=if a=p' then s.lprops p else s.lprops a := by
    rw [←hs']
    exact ht.lprops
  have hin : ∀ k a,In s' k a ↔ a=p'∧k=cat∨In s k a∧a≠p := by
    intro k a
    by_cases hk : k=cat
    · rw [hk,In.onList hcat,In.onList hcat,hlist,update_self,List.mem_map]
      constructor
      · intro ⟨q,hq,heq⟩
        by_cases hqp : q=p
        · rw [if_pos hqp] at heq
          exact Or.inl ⟨heq.symm,rfl⟩
        · rw [if_neg hqp] at heq
          rw [←heq]
          exact Or.inr ⟨hq,hqp⟩
      · rintro (⟨hap,-⟩|⟨hma,hap⟩)
        · exact ⟨p,hmem,by rw [if_pos rfl,hap]⟩
        · exact ⟨a,hma,if_neg hap⟩
    · have hsame : In s' k a ↔ In s k a :=
        In.congr (by rw [harr]) (by rw [hcnt]) (by rw [hlist,update_of_ne hk])
      rw [hsame]
      refine ⟨fun hh => Or.inr ⟨hh,fun hap => hk ?_⟩,fun hh =>
        (hh.resolve_left fun h => hk h.2).1⟩
      have hak := ((hp.mem k a).mp hh).2
      rw [hap] at hak
      exact hak.symm.trans hc
  refine ⟨fun k hk => ?_,fun k hk => ?_,fun k => ?_,hp.mem_replace hlive hnew hc hin hlp,
    fun a ha hk => ?_,?_⟩
  · refine hp.heaps_of hk (by rw [harr]) (by rw [hcnt]) fun a ha _ => ?_
    have hap : a≠p' := fun heq => hnew (heq▸ha)
    refine ⟨hpos a hap,?_⟩
    unfold State.val
    rw [hlp,if_neg hap]
  · rw [hcnt]
    exact hp.room k hk
  · rw [hlist]
    by_cases hk : k=cat
    · rw [hk,update_self]
      refine (hp.nodup cat).map_on fun x hx y hy heq => ?_
      by_cases hxp : x=p
      · by_cases hyp : y=p
        · rw [hxp,hyp]
        · rw [if_pos hxp,if_neg hyp] at heq
          exact absurd (heq▸hy) hnot
      · by_cases hyp : y=p
        · rw [if_neg hxp,if_pos hyp] at heq
          exact absurd (heq▸hx) hnot
        · rw [if_neg hxp,if_neg hyp] at heq
          exact heq
    · rw [update_of_ne hk]
      exact hp.nodup k
  · rw [hlp] at hk ⊢
    by_cases hap : a=p'
    · rw [if_pos hap] at hk ⊢
      exact hp.fits p hlive hk
    · rw [if_neg hap] at hk ⊢
      exact hp.fits a (ha.resolve_left hap).1 hk
  · rw [hfree,hlist,hp.freeable]
    by_cases hk : cat=.freeable
    · rw [hk,update_self,List.length_map]
    · rw [update_of_ne (Ne.symm hk)]

/-- `ubifs_replace_cat` gives a copy the place of its original. -/
theorem Places.replace (hp : Places c s live) (hlive : live p) {p' : ℕ} (hnew : ¬live p')
    (ht : Copied s s₁ p p') : ∃ s',ubifsReplaceCat s₁ p p'=some s'∧
      Places c s' (fun a => a=p'∨live a∧a≠p)∧Replaced s₁ s' := by
  have hcat : (s₁.lprops p').flags.cat=(s.lprops p).flags.cat := by rw [ht.lprops,if_pos rfl]
  unfold ubifsReplaceCat
  rw [hcat]
  by_cases hheap : hasHeap (s.lprops p).flags.cat=true
  · rw [if_pos hheap]
    exact hp.replaceHeap hlive hnew rfl hheap ht
  · rw [if_neg hheap]
    exact hp.replaceList hlive hnew rfl (Bool.eq_false_iff.mpr hheap) ht

end ArdroneKernel.UbifsCategories
