import ArdroneKernel.AshmemRanges
import ArdroneKernel.AshmemPinPages

/-!
# Ashmem when memory runs out

An allocation that fails is met in `ashmem_unpin` after the ranges that overlap
the request were deleted, and in `ashmem_pin` when a hole is punched.
-/

namespace ArdroneKernel.AshmemRequests

open Ashmem Execution

variable {s : State} {a r pgstart pgend addr : ℕ} {mem : Option ℕ}

/-! ## Pinning -/

/-- Where memory is there for a hole, or there is no hole, nothing is refused. -/
theorem tryPinLoop_of_memory (rest : List ℕ) : ∀ (s : State) (ret : Bool),rest.Nodup →
    (∀ r∈rest,Hole s pgstart pgend r → mem=some addr) →
    tryPinLoop mem a pgstart pgend rest ret s=
      ⟨(pinLoop addr a pgstart pgend rest ret s).1,
        (pinLoop addr a pgstart pgend rest ret s).2,false⟩ := by
  induction rest with
  | nil => intro s ret _ _; rfl
  | cons r rs ih =>
    intro s ret hnodup hmem
    have ⟨hr,hrs⟩ := List.nodup_cons.mp hnodup
    have htail : ∀ s' : State,(∀ x,x≠r → s'.range x=s.range x) →
        ∀ x∈rs,Hole s' pgstart pgend x → mem=some addr := by
      intro s' hsame x hx hole
      unfold Hole at hole
      rw [hsame x fun he => hr (he▸hx)] at hole
      exact hmem x (List.mem_cons_of_mem _ hx) hole
    have hshrink : ∀ u v,∀ x,x≠r → (rangeShrink s r u v).range x=s.range x := by
      intro u v x hx
      rw [rangeShrink_range,Function.update_of_ne hx]
    unfold tryPinLoop pinLoop
    by_cases hb : (s.range r).before pgstart=true
    · rw [if_pos hb,if_pos hb]
    rw [if_neg hb,if_neg hb]
    by_cases hm : (s.range r).meets pgstart pgend=true
    case neg =>
      rw [if_neg hm,if_neg hm]
      exact ih s ret hrs (htail s fun _ _ => rfl)
    rw [if_pos hm,if_pos hm]
    by_cases h1 : (s.range r).subsumedBy pgstart pgend=true
    · rw [if_pos h1,if_pos h1]
      exact ih _ _ hrs (htail _ fun x _ => by rw [rangeDel_range])
    rw [if_neg h1,if_neg h1]
    by_cases h2 : (s.range r).pgstart≥ pgstart
    · rw [if_pos h2,if_pos h2]
      exact ih _ _ hrs (htail _ (hshrink _ _))
    rw [if_neg h2,if_neg h2]
    by_cases h3 : (s.range r).pgend≤ pgend
    · rw [if_pos h3,if_pos h3]
      exact ih _ _ hrs (htail _ (hshrink _ _))
    rw [if_neg h3,if_neg h3,hmem r List.mem_cons_self ⟨not_le.mp h2,not_le.mp h3⟩]
    rfl

/-- Ranges after the interval are passed. -/
theorem tryPinLoop_skip (hle : pgstart≤ pgend) (xs l : List ℕ) (ret : Bool)
    (hxs : ∀ x∈xs,pgend<(s.range x).pgstart∧(s.range x).pgstart≤(s.range x).pgend) :
    tryPinLoop mem a pgstart pgend (xs++l) ret s=tryPinLoop mem a pgstart pgend l ret s := by
  induction xs with
  | nil => rfl
  | cons x xs ih =>
    have hx := hxs x List.mem_cons_self
    have hb : ¬(s.range x).before pgstart=true := by
      rw [before_iff]
      omega
    have hm : ¬(s.range x).meets pgstart pgend=true := by
      rw [meets_iff hx.2 hle]
      omega
    rw [List.cons_append,tryPinLoop]
    rw [if_neg hb,if_neg hm]
    exact ih fun y hy => hxs y (List.mem_cons_of_mem _ hy)

/-- Without memory a hole takes the rest of the range as well. -/
theorem tryPinLoop_hole (h : Inv s) (hle : pgstart≤ pgend) (hr : r∈s.unpinned a)
    (hole : Hole s pgstart pgend r) : tryAshmemPin s none a pgstart pgend=
      ⟨(s.range r).purged,rangeShrink s r (s.range r).pgstart (pgstart-1),true⟩ := by
  have ⟨xs,ys,hlist,hxs,_⟩ := h.at hr
  have hole' : (s.range r).pgstart<pgstart∧pgend<(s.range r).pgend := hole
  have hpast : ∀ x∈xs,pgend<(s.range x).pgstart∧(s.range x).pgstart≤(s.range x).pgend := by
    intro x hx
    have hmem : x∈s.unpinned a := by
      rw [hlist]
      exact List.mem_append_left _ hx
    exact ⟨hole'.2.trans (hxs x hx),(h.owned a x hmem).1⟩
  unfold tryAshmemPin
  rw [hlist,tryPinLoop_skip hle xs _ false hpast,tryPinLoop]
  rw [if_neg (by rw [before_iff]; omega),if_pos (by rw [meets_iff (h.owned a r hr).1 hle]; omega),
    if_neg (by rw [subsumedBy_iff]; omega),if_neg (by omega),if_neg (by omega)]
  rfl

/-- What pinning does to the ranges, with or without memory. -/
structure TryPinned (a : ℕ) (s s' : State) : Prop where
  inv : Inv s'
  only : Only a s s'
  /-- No page is unpinned. -/
  covered : ∀ f p,Covered s' a f p → Covered s a f p

theorem tryAshmemPin_spec (h : Inv s) (hle : pgstart≤ pgend)
    (fresh : ∀ addr,mem=some addr → Fresh s addr) :
    TryPinned a s (tryAshmemPin s mem a pgstart pgend).state := by
  have hnodup := h.nodup a
  -- the loop, when no allocation fails
  have hpin : ∀ addr,(∀ r∈s.unpinned a,Hole s pgstart pgend r → mem=some addr) →
      TryPinned a s (tryAshmemPin s mem a pgstart pgend).state := by
    intro addr hmem
    have hp : Pinned a pgstart pgend s false
        (pinLoop addr a pgstart pgend (s.unpinned a) false s) :=
      pinLoop_spec hle _ s [] false h (fun r hr hole => fresh addr (hmem r hr hole)) rfl
        fun _ hx => absurd hx List.not_mem_nil
    unfold tryAshmemPin
    rw [tryPinLoop_of_memory _ s false hnodup hmem]
    exact ⟨hp.inv,hp.only,fun f p hc => ((hp.covered f p).mp hc).1⟩
  cases hmem : mem with
  | some addr => exact hmem▸hpin addr fun _ _ _ => hmem
  | none =>
    by_cases hole : ∃ r∈s.unpinned a,Hole s pgstart pgend r
    · have ⟨r,hr,hh⟩ := hole
      have hh' : (s.range r).pgstart<pgstart∧pgend<(s.range r).pgend := hh
      rw [tryPinLoop_hole h hle hr hh]
      have ⟨hi,only,covered⟩ := rangeShrink_spec h hr
        (s.range r).pgstart (pgstart-1) le_rfl (by omega) (by omega)
      exact ⟨hi,only,fun f p hc => ((covered f p).mp hc).1⟩
    · exact hmem▸hpin 0 fun r hr hh => absurd ⟨r,hr,hh⟩ hole

/-! ## Unpinning -/

/-- A range has a page of an interval. -/
def Overlaps (s : State) (pgstart pgend r : ℕ) : Prop :=
  (s.range r).pgstart≤ pgend∧pgstart≤(s.range r).pgend

/-- A range has all pages of an interval. -/
def Contains (s : State) (pgstart pgend r : ℕ) : Prop :=
  (s.range r).pgstart≤ pgstart∧pgend≤(s.range r).pgend

/-- With memory for a range nothing is refused. -/
theorem tryUnpinLoop_some (fuel : ℕ) : ∀ (pgstart pgend : ℕ) (purged : Bool) (s : State),
    tryUnpinLoop (some addr) a fuel pgstart pgend purged s=
      (unpinLoop addr a fuel pgstart pgend purged s).map fun s => ⟨0,s,false⟩ := by
  induction fuel with
  | zero => intro _ _ _ _; rfl
  | succ fuel ih =>
    intro pgstart pgend purged s
    unfold tryUnpinLoop unpinLoop
    cases unpinScan s pgstart pgend (s.unpinned a) with
    | subsumed => rfl
    | merge r => exact ih _ _ _ _
    | insert prev => rfl

/-- A range that is merged does not have all pages of the request. -/
theorem unpinScan_merge (l : List ℕ) (h : unpinScan s pgstart pgend l=.merge r) :
    ¬Contains s pgstart pgend r := by
  induction l with
  | nil => cases h
  | cons x xs ih =>
    unfold unpinScan at h
    by_cases hb : (s.range x).before pgstart=true
    · rw [if_pos hb] at h
      cases h
    rw [if_neg hb] at h
    by_cases hs : (s.range x).subsumes pgstart pgend=true
    · rw [if_pos hs] at h
      cases h
    rw [if_neg hs] at h
    by_cases hm : (s.range x).meets pgstart pgend=true
    · rw [if_pos hm] at h
      cases h
      rw [subsumes_iff] at hs
      exact hs
    · rw [if_neg hm] at h
      exact ih h

/-- Two ranges of an area lie apart. -/
theorem apart (h : Inv s) {r' : ℕ} (hr : r∈s.unpinned a) (hr' : r'∈s.unpinned a) (hne : r'≠r) :
    (s.range r').pgend<(s.range r).pgstart∨(s.range r).pgend<(s.range r').pgstart := by
  have ⟨xs,ys,hlist,hxs,hys⟩ := h.at hr
  rw [hlist] at hr'
  rcases List.mem_append.mp hr' with hx|hx
  · exact Or.inr (hxs r' hx)
  · exact Or.inl (hys r' ((List.mem_cons.mp hx).resolve_left hne))

/-- What is left of an area when no memory is there for the new range: the
ranges that overlap the request are gone. -/
structure UnpinRefused (a pgstart pgend : ℕ) (s : State) (o : Outcome ℤ) : Prop where
  ret : o.ret= -ENOMEM
  refused : o.refused=true
  outside : ∀ r∈s.unpinned a,¬Contains s pgstart pgend r
  inv : Inv o.state
  only : Only a s o.state
  covered : ∀ f p,Covered o.state a f p ↔
    Covered s a f p∧∀ r∈s.unpinned a,Overlaps s pgstart pgend r → (s.range r).has p=false

/-- One more range was deleted. -/
theorem UnpinRefused.merge (h : Inv s) (hr : r∈s.unpinned a) {o : Outcome ℤ}
    (hover : Overlaps s pgstart pgend r) (hnot : ¬Contains s pgstart pgend r)
    (h' : UnpinRefused a (min (s.range r).pgstart pgstart) (max (s.range r).pgend pgend)
      (rangeDel s r) o) : UnpinRefused a pgstart pgend s o := by
  have ⟨_,only,hl,covered⟩ := rangeDel_spec h hr
  have hover' : (s.range r).pgstart≤ pgend∧pgstart≤(s.range r).pgend := hover
  have hiff : ∀ r'∈s.unpinned a,r'≠r →
      (Overlaps s (min (s.range r).pgstart pgstart) (max (s.range r).pgend pgend) r' ↔
        Overlaps s pgstart pgend r') := by
    intro r' hr' hne
    have := apart h hr hr' hne
    have := (h.owned a r' hr').1
    unfold Overlaps
    omega
  refine ⟨h'.ret,h'.refused,fun r' hr' hc => ?_,h'.inv,only.trans h'.only,fun f p => ?_⟩
  · by_cases hne : r'=r
    · exact hnot (hne▸hc)
    · have hc' : (s.range r').pgstart≤ pgstart∧pgend≤(s.range r').pgend := hc
      have := apart h hr hr' hne
      omega
  · rw [h'.covered,covered,hl]
    unfold Overlaps at hiff ⊢
    rw [rangeDel_range]
    constructor
    · intro ⟨⟨hc,hp⟩,hall⟩
      refine ⟨hc,fun r' hr' ho => ?_⟩
      by_cases hne : r'=r
      · exact hne▸hp
      · exact hall r' ((List.mem_erase_of_ne hne).mpr hr') ((hiff r' hr' hne).mpr ho)
    · intro ⟨hc,hall⟩
      refine ⟨⟨hc,hall r hr hover⟩,fun r' hr' ho => ?_⟩
      have ⟨hne,hmem⟩ := (h.nodup a).mem_erase_iff.mp hr'
      exact hall r' hmem ((hiff r' hmem hne).mp ho)

/-- Without memory a request either has all its pages in a range, or fails. -/
theorem tryUnpinLoop_none (fuel : ℕ) : ∀ (pgstart pgend : ℕ) (purged : Bool) (s : State),Inv s →
    pgstart≤ pgend → (s.unpinned a).length<fuel →
    ∃ o,tryUnpinLoop none a fuel pgstart pgend purged s=some o∧
      (o=⟨0,s,false⟩∧(∃ r∈s.unpinned a,Contains s pgstart pgend r)∨
        UnpinRefused a pgstart pgend s o) := by
  induction fuel with
  | zero =>
    intro _ _ _ s _ _ hlen
    exact absurd hlen (Nat.not_lt_zero _)
  | succ fuel ih =>
    intro pgstart pgend purged s h hle hlen
    have hfinds := unpinScan_finds hle (s.unpinned a) (fun r hr => (h.owned a r hr).1)
      (h.descending a)
    unfold tryUnpinLoop
    cases hscan : unpinScan s pgstart pgend (s.unpinned a) with
    | subsumed =>
      rw [hscan] at hfinds
      exact ⟨_,rfl,Or.inl ⟨rfl,hfinds⟩⟩
    | merge r =>
      rw [hscan] at hfinds
      have ⟨hr,hover⟩ := hfinds
      have ⟨hi,_,hl,_⟩ := rangeDel_spec h hr
      have hlen' : ((rangeDel s r).unpinned a).length<fuel := by
        rw [hl,List.length_erase_of_mem hr]
        have := List.length_pos_of_mem hr
        omega
      have ⟨o,hrun,ho⟩ := ih (min (s.range r).pgstart pgstart) (max (s.range r).pgend pgend)
        (purged||(s.range r).purged) (rangeDel s r) hi (by omega) hlen'
      refine ⟨o,hrun,Or.inr ?_⟩
      rcases ho with ⟨_,r',hr',hc⟩|ho
      · -- the pages of the range that was deleted are in no other one
        rw [hl] at hr'
        have ⟨hne,hmem⟩ := (h.nodup a).mem_erase_iff.mp hr'
        have hc' : ((rangeDel s r).range r').pgstart≤ min (s.range r).pgstart pgstart∧
          max (s.range r).pgend pgend≤((rangeDel s r).range r').pgend := hc
        rw [rangeDel_range] at hc'
        have := apart h hr hmem hne
        omega
      · exact ho.merge h hr hover (unpinScan_merge _ hscan)
    | insert prev =>
      rw [hscan] at hfinds
      have ⟨xs,ys,hlist,_,hxs,hys⟩ := hfinds
      have hout : ∀ r∈s.unpinned a,pgend<(s.range r).pgstart∨(s.range r).pgend<pgstart := by
        intro r hr
        rw [hlist] at hr
        exact (List.mem_append.mp hr).imp (hxs r) (hys r)
      refine ⟨_,rfl,Or.inr ⟨rfl,rfl,fun r hr hc => ?_,h,Only.refl a s,fun f p => ?_⟩⟩
      · have hc' : (s.range r).pgstart≤ pgstart∧pgend≤(s.range r).pgend := hc
        have := hout r hr
        omega
      · refine ⟨fun hc => ⟨hc,fun r hr ho => ?_⟩,And.left⟩
        have ho' : (s.range r).pgstart≤ pgend∧pgstart≤(s.range r).pgend := ho
        have := hout r hr
        omega

/-- What unpinning does to the ranges, with or without memory. -/
structure TryUnpinned (a pgstart pgend : ℕ) (s s' : State) : Prop where
  inv : Inv s'
  only : Only a s s'
  /-- No page outside of the request is unpinned. -/
  covered : ∀ p,Covered s' a (fun _ => True) p →
    Covered s a (fun _ => True) p∨(pgstart≤ p∧p≤ pgend)

theorem tryAshmemUnpin_spec (h : Inv s) (hle : pgstart≤ pgend)
    (fresh : ∀ addr,mem=some addr → Fresh s addr) :
    ∃ o,tryAshmemUnpin s mem a pgstart pgend=some o∧TryUnpinned a pgstart pgend s o.state := by
  cases mem with
  | some addr =>
    have ⟨s',hrun,hs'⟩ := ashmemUnpin_spec (a := a) h (fresh addr rfl) hle
    have hrun' : unpinLoop addr a ((s.unpinned a).length+1) pgstart pgend false s=some s' := hrun
    refine ⟨⟨0,s',false⟩,?_,hs'.inv,hs'.only,fun p hc => (hs'.covered p).mp hc⟩
    unfold tryAshmemUnpin
    rw [tryUnpinLoop_some,hrun']
    rfl
  | none =>
    have ⟨o,hrun,ho⟩ := tryUnpinLoop_none (a := a) _ pgstart pgend false s h hle (Nat.lt_succ_self _)
    refine ⟨o,hrun,?_⟩
    rcases ho with ⟨rfl,_⟩|ho
    · exact ⟨h,Only.refl a s,fun _ hc => Or.inl hc⟩
    · exact ⟨ho.inv,ho.only,fun p hc => Or.inl ((ho.covered _ p).mp hc).1⟩

/-! ## What a failed allocation leaves -/

/-- Pages that meet a condition are unpinned as before, with the same marks. -/
def SamePages (among : ℕ → ℕ → Prop) (s s' : State) : Prop :=
  ∀ b f p,among b p → (Covered s' b f p ↔ Covered s b f p)

/-- If the allocation in `ashmem_unpin` fails, `-ENOMEM` is returned and all
pages are as before. -/
def UnpinKeeps (s : State) (a pgstart pgend : ℕ) : Prop :=
  ∃ o,tryAshmemUnpin s none a pgstart pgend=some o∧
    (o.refused=true → o.ret= -ENOMEM∧SamePages (fun _ _ => True) s o.state)

/-- If the allocation in `ashmem_pin` fails, the pages outside of the request
are as before. -/
def PinKeeps (s : State) (a pgstart pgend : ℕ) : Prop :=
  (tryAshmemPin s none a pgstart pgend).refused=true →
    SamePages (fun b p => ¬(b=a∧pgstart≤ p∧p≤ pgend)) s (tryAshmemPin s none a pgstart pgend).state

theorem unpinKeeps_iff (h : Inv s) (hle : pgstart≤ pgend) : UnpinKeeps s a pgstart pgend ↔
    (∀ r∈s.unpinned a,¬Overlaps s pgstart pgend r)∨∃ r∈s.unpinned a,Contains s pgstart pgend r := by
  have ⟨o,hrun,ho⟩ :=
    tryUnpinLoop_none (a := a) _ pgstart pgend false s h hle (Nat.lt_succ_self _)
  have hrun' : tryAshmemUnpin s none a pgstart pgend=some o := hrun
  rcases ho with ⟨rfl,hc⟩|ho
  · exact iff_of_true ⟨_,hrun',nofun⟩ (Or.inr hc)
  constructor
  · intro ⟨o',ho',hkeep⟩
    rw [hrun'] at ho'
    cases ho'
    refine Or.inl fun r hr hover => ?_
    have hfirst : (s.range r).has (s.range r).pgstart=true :=
      (has_iff _ _).mpr ⟨le_rfl,(h.owned a r hr).1⟩
    have hc : Covered s a (fun _ => True) (s.range r).pgstart := ⟨r,hr,hfirst,trivial⟩
    have hlost := ((ho.covered _ _).mp (((hkeep ho.refused).2 a _ _ trivial).mpr hc)).2 r hr hover
    rw [hfirst] at hlost
    cases hlost
  · rintro (hnone|⟨r,hr,hc⟩)
    · refine ⟨o,hrun',fun _ => ⟨ho.ret,fun b f p _ => ?_⟩⟩
      by_cases hb : b=a
      · rw [hb,ho.covered]
        exact and_iff_left fun r hr hover => absurd hover (hnone r hr)
      · exact ho.only.covered hb f p
    · exact absurd hc (ho.outside r hr)

theorem pinKeeps_iff (h : Inv s) (hle : pgstart≤ pgend) : PinKeeps s a pgstart pgend ↔
    ∀ r∈s.unpinned a,¬Hole s pgstart pgend r := by
  unfold PinKeeps
  constructor
  · intro hkeep r hr hole
    have hole' : (s.range r).pgstart<pgstart∧pgend<(s.range r).pgend := hole
    rw [tryPinLoop_hole h hle hr hole] at hkeep
    have ⟨_,_,covered⟩ := rangeShrink_spec h hr
      (s.range r).pgstart (pgstart-1) le_rfl (by omega) (by omega)
    have hnext : (s.range r).has (pgend+1)=true := (has_iff _ _).mpr ⟨by omega,by omega⟩
    have hc : Covered s a (fun _ => True) (pgend+1) := ⟨r,hr,hnext,trivial⟩
    have hlost := ((covered _ _).mp ((hkeep rfl a _ (pgend+1) (by omega)).mpr hc)).2 hnext
    omega
  · intro hnone hrefused
    have hfree : tryPinLoop none a pgstart pgend (s.unpinned a) false s=
        ⟨(pinLoop 0 a pgstart pgend (s.unpinned a) false s).1,
          (pinLoop 0 a pgstart pgend (s.unpinned a) false s).2,false⟩ :=
      tryPinLoop_of_memory _ s false (h.nodup a) fun r hr hole => absurd hole (hnone r hr)
    unfold tryAshmemPin at hrefused
    rw [hfree] at hrefused
    cases hrefused

/-! ## Runs -/

/-- What every call keeps: the ranges of an area are apart, and are pages of it. -/
structure Bounded (size : ℕ → UInt32) (s : State) : Prop where
  inv : Inv s
  inside : ∀ a p,Covered s a (fun _ => True) p → 4096*(p+1)≤(pageAlign (size a)).toNat

variable {size : ℕ → UInt32}

/-- The pages of a request lie in the area. -/
theorem pages_inside {size : UInt32} {pin : Pin} {pgstart pgend : UInt32}
    (h : pinPages size pin=.ok (pgstart,pgend)) (named : Named size pin) :
    pgstart.toNat≤ pgend.toNat∧4096*(pgend.toNat+1)≤(pageAlign size).toNat := by
  have ⟨ho,hl,hle,_,_⟩ := pinPages_ok h
  have hpos := (pinLen_pos_iff size pin).mpr named
  have ⟨hs,he,_⟩ := pages_toNat h hpos
  omega

/-- No page is unpinned outside of the area. -/
theorem Bounded.of_only (h : Bounded size s) {s' : State} (hi : Inv s') (only : Only a s s')
    (covered : ∀ p,Covered s' a (fun _ => True) p →
      Covered s a (fun _ => True) p∨4096*(p+1)≤(pageAlign (size a)).toNat) : Bounded size s' := by
  refine ⟨hi,fun b p hc => ?_⟩
  by_cases hb : b=a
  · rw [hb] at hc ⊢
    exact (covered p hc).elim (h.inside a p) id
  · exact h.inside b p ((only.covered hb _ p).mp hc)

theorem ashmemPinUnpin_spec (h : Bounded size s) (file copied : Bool) (cmd : Cmd) {pin : Pin}
    (fresh : ∀ addr,mem=some addr → Fresh s addr) (named : Named (size a) pin) :
    ∃ o,ashmemPinUnpin s file copied (size a) mem a cmd pin=some o∧Bounded size o.state := by
  unfold ashmemPinUnpin
  by_cases hf : ¬file=true
  · rw [if_pos hf]
    exact ⟨_,rfl,h⟩
  rw [if_neg hf]
  by_cases hc : ¬copied=true
  · rw [if_pos hc]
    exact ⟨_,rfl,h⟩
  rw [if_neg hc]
  cases hpages : pinPages (size a) pin with
  | error err => exact ⟨_,rfl,h⟩
  | ok pages =>
    have ⟨hle,hin⟩ := pages_inside hpages named
    cases cmd with
    | pin =>
      have hp := tryAshmemPin_spec (a := a) h.inv hle fresh
      exact ⟨_,rfl,h.of_only hp.inv hp.only fun p hc => Or.inl (hp.covered _ p hc)⟩
    | unpin =>
      have ⟨o,hrun,hu⟩ := tryAshmemUnpin_spec (a := a) h.inv hle fresh
      refine ⟨o,hrun,h.of_only hu.inv hu.only fun p hc => (hu.covered p hc).imp_right ?_⟩
      omega
    | getPinStatus => exact ⟨_,rfl,h⟩

theorem callStep_spec (h : Bounded size s) {c : Call} (ok : CallOk size s c) :
    ∃ s',callStep size s c=some s'∧Bounded size s' := by
  cases c with
  | pinUnpin file copied mem a cmd pin =>
    have ⟨o,hrun,ho⟩ := ashmemPinUnpin_spec h file copied cmd ok.1 ok.2
    refine ⟨o.state,?_,ho⟩
    unfold callStep
    dsimp only
    rw [hrun]
    rfl
  | shrink nr gfpFs =>
    have hs := ashmemShrink_spec h.inv nr gfpFs
    exact ⟨_,rfl,hs.inv,fun a p hc => h.inside a p ((hs.covered a p).mp hc)⟩
  | release a =>
    have ⟨hi,only,hnil⟩ := ashmemRelease_spec h.inv a
    refine ⟨_,rfl,h.of_only hi only fun p ⟨r,hr,_⟩ => ?_⟩
    rw [hnil] at hr
    cases hr

theorem run_inBounds {cs : List Call}
    (h : Run (callStep size) (CallOk size) Session.start.state cs s) : Bounded size s := by
  refine h.invariant (Bounded size) ⟨start_inv.inv,?_⟩ fun hi ok hs => ?_
  · rintro a p ⟨r,hr,_⟩
    cases hr
  · have ⟨s',hs',hi'⟩ := callStep_spec hi ok
    rw [hs] at hs'
    rw [Option.some.inj hs']
    exact hi'

/-- The request to unpin the first three pages of an area of four, and its state. -/
def threePages : Call := .pinUnpin true true (some 1) 0 .unpin ⟨0,12288⟩

theorem threePages_run : ∃ s,Run (callStep fun _ => 16384) (CallOk fun _ => 16384)
    Session.start.state [threePages] s∧s.unpinned 0=[1]∧s.range 1=⟨0,0,2,false⟩ := by
  refine ⟨_,Run.cons ⟨?_,by decide⟩ rfl (Run.nil _),rfl,rfl⟩
  intro addr _ a hmem
  cases hmem

/-- After any calls, a failed allocation keeps the pages exactly when the
request to unpin overlaps no range and the one to pin punches no hole. -/
theorem refused_keeps_iff (size : ℕ → UInt32) (cs : List Call) (s : State)
    (h : Run (callStep size) (CallOk size) Session.start.state cs s) (a pgstart pgend : ℕ)
    (hle : pgstart≤ pgend) :
    (UnpinKeeps s a pgstart pgend ↔ (∀ r∈s.unpinned a,¬Overlaps s pgstart pgend r)∨
      ∃ r∈s.unpinned a,Contains s pgstart pgend r)∧
    (PinKeeps s a pgstart pgend ↔ ∀ r∈s.unpinned a,¬Hole s pgstart pgend r) :=
  ⟨unpinKeeps_iff (run_inBounds h).inv hle,pinKeeps_iff (run_inBounds h).inv hle⟩

theorem refused_keeps_iff_example : ∃ s : State,s.unpinned 0=[1]∧
    (UnpinKeeps s 0 3 3 ↔ (∀ r∈s.unpinned 0,¬Overlaps s 3 3 r)∨
      ∃ r∈s.unpinned 0,Contains s 3 3 r)∧
    (PinKeeps s 0 3 3 ↔ ∀ r∈s.unpinned 0,¬Hole s 3 3 r) := by
  have ⟨s,hrun,hlist,_⟩ := threePages_run
  exact ⟨s,hlist,refused_keeps_iff _ _ s hrun 0 3 3 le_rfl⟩

/-- Unpinning a page more, and pinning the middle one, lose pages. -/
theorem refused_loses : ∃ s,Run (callStep fun _ => 16384) (CallOk fun _ => 16384)
    Session.start.state [threePages] s∧¬UnpinKeeps s 0 0 3∧¬PinKeeps s 0 1 1 := by
  have ⟨s,hrun,hlist,hrange⟩ := threePages_run
  have hinv := (run_inBounds hrun).inv
  refine ⟨s,hrun,?_,?_⟩
  · rw [unpinKeeps_iff hinv (by decide),hlist]
    unfold Overlaps Contains
    rintro (hnone|⟨r,hr,hc⟩)
    · have := hnone 1 List.mem_cons_self
      rw [hrange] at this
      exact this (by decide)
    · rw [List.mem_singleton.mp hr,hrange] at hc
      exact absurd hc (by decide)
  · rw [pinKeeps_iff hinv le_rfl,hlist]
    intro hnone
    have := hnone 1 List.mem_cons_self
    unfold Hole at this
    rw [hrange] at this
    exact this (by decide)

/-- An accepted request names pages of the area, those of its bytes, exactly
when it is not the empty one at the end of the area. When all requests are so,
every range is reclaimed right. -/
theorem accepted_iff_named (size : ℕ → UInt32) :
    (∀ asma pin pgstart pgend,pinPages (size asma) pin=.ok (pgstart,pgend) →
      (PagesRight (size asma) pin pgstart pgend ↔ Named (size asma) pin))∧
    ∀ cs s,Run (callStep size) (CallOk size) Session.start.state cs s →
      ∀ a,∀ r∈s.unpinned a,RangeRight (s.range r) := by
  refine ⟨fun asma pin pgstart pgend h => pinPages_right h,fun cs s hrun a r hr => ?_⟩
  have hb := run_inBounds hrun
  have hle := (hb.inv.owned a r hr).1
  have hlast := hb.inside a _ ⟨r,hr,(has_iff _ _).mpr ⟨hle,le_rfl⟩,trivial⟩
  have := (pageAlign (size a)).toNat_lt
  exact rangeRight_of_bounds hle (by omega)

theorem accepted_iff_named_example : ∃ s : State,s.unpinned 0=[1]∧RangeRight (s.range 1)∧
    (PagesRight 16384 ⟨4096,0⟩ 1 3 ↔ Named 16384 ⟨4096,0⟩) := by
  have ⟨s,hrun,hlist,_⟩ := threePages_run
  have h := accepted_iff_named fun _ => 16384
  exact ⟨s,hlist,h.2 _ s hrun 0 1 (by rw [hlist]; decide),h.1 0 ⟨4096,0⟩ 1 3 rfl⟩

/-- The empty request at the end of an area of one page is accepted. -/
theorem empty_accepted : pinPages 4096 ⟨4096,0⟩=.ok (1,0)∧¬PagesRight 4096 ⟨4096,0⟩ 1 0∧
    (⟨0,1,0,false⟩ : Range).size=0 := by
  refine ⟨rfl,fun h => ?_,by decide⟩
  exact absurd h.order (by decide)

end ArdroneKernel.AshmemRequests
