import ArdroneKernel.UbifsGaps
import Mathlib.Data.Finset.Card

/-!
# Runs of the in-the-gaps loop

What the layout of a LEB does to properties concerns LEBs that are taken, which
no later search looks at, so the LEBs found are the same as without the layout.
The array has an entry for every LEB that was an index LEB when the loop began
and one for the end of the array; the loop stays inside it exactly when it does
not take more LEBs than that.
-/

namespace ArdroneKernel.UbifsGaps

open UbifsLprops Function

variable {env : Env} {s s' t : State} {lnum x k n : ℕ} {w w' : Progress} {cnt : ℤ}

/-! ## Changing properties -/

theorem changeOneLp_other (free dirty : Option ℕ) (flags : Flags → Flags) (h : x≠lnum) :
    (ubifsChangeOneLp s lnum free dirty flags).lprops x=s.lprops x := by
  exact update_of_ne h _ _

theorem changeOneLp_flags (free dirty : Option ℕ) (flags : Flags → Flags) :
    ((ubifsChangeOneLp s lnum free dirty flags).lprops lnum).flags=
      flags (s.lprops lnum).flags := by
  unfold ubifsChangeOneLp
  dsimp only
  rw [update_self]

/-! ## What a search finds -/

theorem dirtiest_some {lprops : ℕ → Lprops} {arr rest : List ℕ}
    (h : dirtiest lprops arr=(some lnum,rest)) :
    (lprops lnum).flags.taken=false∧(lprops lnum).flags.index=true∧rest.length<arr.length := by
  induction arr with
  | nil => cases h
  | cons y arr ih =>
    unfold dirtiest at h
    split_ifs at h with hskip
    · have hrest := ih h
      exact ⟨hrest.1,hrest.2.1,hrest.2.2.trans (Nat.lt_succ_self _)⟩
    · cases h
      simp only [not_or,Bool.not_eq_true,Bool.not_eq_false] at hskip
      exact ⟨hskip.1,hskip.2,Nat.lt_succ_self _⟩

theorem dirtiest_none {lprops : ℕ → Lprops} {arr rest : List ℕ}
    (h : dirtiest lprops arr=(none,rest)) : rest=[] := by
  induction arr with
  | nil =>
    cases h
    rfl
  | cons y arr ih =>
    unfold dirtiest at h
    split_ifs at h with hskip
    · exact ih h
    · cases h

/-- The ways in which a search finds a LEB. -/
inductive Found (env : Env) (k : ℕ) (s : State) (lnum : ℕ) : State → Prop where
  /-- In the array of dirty index LEBs. -/
  | array (arr : List ℕ) (hlen : arr.length<s.dirtyIdx.length)
      (hfree : (s.lprops lnum).flags.taken=false) (hidx : (s.lprops lnum).flags.index=true) :
      Found env k s lnum (ubifsChangeOneLp {s with dirtyIdx := arr} lnum none none setTaken)
  /-- Among the LEB properties. -/
  | scan (hlt : lnum<env.lebCnt) (hfree : (s.lprops lnum).flags.taken=false)
      (hidx : (s.lprops lnum).flags.index=true) :
      Found env k s lnum (ubifsChangeOneLp {s with dirtyIdx := []} lnum none none setTaken)
  /-- On the list of LEBs that wait for garbage collection. -/
  | gc (rest : List ℕ) (hgc : s.idxGc=lnum::rest) :
      Found env k s lnum
        (ubifsChangeOneLp {s with dirtyIdx := [],idxGc := rest} lnum none none setIndex)

theorem found_of_find (h : ubifsFindDirtyIdxLeb env k s=(some lnum,s')) :
    Found env k s lnum s' := by
  unfold ubifsFindDirtyIdxLeb findDirtiestIdxLeb at h
  rcases hd : dirtiest s.lprops s.dirtyIdx with ⟨_ | y,arr⟩
  · rw [hd] at h
    rw [dirtiest_none hd] at h
    unfold findDirtyIdxLeb at h
    dsimp only at h
    rcases hf : (env.search k).find? fun lnum => scanDirtyIdxStops env (s.lprops lnum) with _ | y
    · rw [hf] at h
      unfold getIdxGcLeb at h
      dsimp only at h
      split at h
      · cases h
      · rename_i y rest hgc
        cases h
        exact .gc rest hgc
    · rw [hf] at h
      cases h
      have hstop := List.find?_some hf
      unfold scanDirtyIdxStops at hstop
      simp only [Bool.and_eq_true,Bool.not_eq_true'] at hstop
      exact .scan (env.search_lt k _ (List.mem_of_find?_eq_some hf)) hstop.1.1 hstop.1.2
  · rw [hd] at h
    cases h
    have hy := dirtiest_some hd
    exact .array arr hy.2.2 hy.1 hy.2.1

theorem find_none_lprops (h : ubifsFindDirtyIdxLeb env k s=(none,s')) : s'.lprops=s.lprops := by
  unfold ubifsFindDirtyIdxLeb findDirtiestIdxLeb at h
  rcases hd : dirtiest s.lprops s.dirtyIdx with ⟨_ | y,arr⟩
  · rw [hd] at h
    unfold findDirtyIdxLeb at h
    dsimp only at h
    rcases hf : (env.search k).find? fun lnum => scanDirtyIdxStops env (s.lprops lnum) with _ | y
    · rw [hf] at h
      unfold getIdxGcLeb at h
      dsimp only at h
      split at h
      · cases h
        rfl
      · cases h
    · rw [hf] at h
      cases h
  · rw [hd] at h
    cases h

/-! ## The layout does not change what is found -/

/-- The states agree but for the space of taken LEBs and for the znodes. -/
structure Same (s t : State) : Prop where
  dirtyIdx : s.dirtyIdx=t.dirtyIdx
  idxGc : s.idxGc=t.idxGc
  flags : ∀ x,(s.lprops x).flags=(t.lprops x).flags
  untaken : ∀ x,(s.lprops x).flags.taken=false → s.lprops x=t.lprops x

theorem Same.refl (s : State) : Same s s := ⟨rfl,rfl,fun _ => rfl,fun _ _ => rfl⟩

theorem Same.change {flags : Flags → Flags} (h : Same s t)
    (hflags : ∀ f : Flags,(flags f).taken=false → f.taken=false) (lnum : ℕ) (arr gc : List ℕ) :
    Same (ubifsChangeOneLp {s with dirtyIdx := arr,idxGc := gc} lnum none none flags)
      (ubifsChangeOneLp {t with dirtyIdx := arr,idxGc := gc} lnum none none flags) := by
  have hself : ∀ r : State,
      (ubifsChangeOneLp {r with dirtyIdx := arr,idxGc := gc} lnum none none flags).lprops lnum=
        ⟨(r.lprops lnum).free,(r.lprops lnum).dirty,flags (r.lprops lnum).flags⟩ := by
    intro r
    exact update_self _ _ _
  refine ⟨rfl,rfl,fun x => ?_,fun x hx => ?_⟩
  · by_cases hl : x=lnum
    · rw [hl,hself,hself,h.flags]
    · rw [changeOneLp_other _ _ _ hl,changeOneLp_other _ _ _ hl]
      exact h.flags x
  · by_cases hl : x=lnum
    · rw [hl,hself] at hx
      rw [hl,hself,hself,h.untaken lnum (hflags _ hx)]
    · rw [changeOneLp_other _ _ _ hl] at hx ⊢
      rw [changeOneLp_other _ _ _ hl]
      exact h.untaken x hx

theorem dirtiest_congr {f g : ℕ → Lprops} (h : ∀ x,(f x).flags=(g x).flags) (arr : List ℕ) :
    dirtiest f arr=dirtiest g arr := by
  induction arr with
  | nil => rfl
  | cons y arr ih =>
    unfold dirtiest
    rw [h y,ih]

theorem Same.stops (h : Same s t) (env : Env) (x : ℕ) :
    scanDirtyIdxStops env (s.lprops x)=scanDirtyIdxStops env (t.lprops x) := by
  cases hx : (s.lprops x).flags.taken
  · rw [h.untaken x hx]
  · have ht : (t.lprops x).flags.taken=true := by rw [←h.flags,hx]
    unfold scanDirtyIdxStops
    rw [hx,ht]
    rfl

theorem setTaken_taken (f : Flags) (h : (setTaken f).taken=false) : f.taken=false := by
  cases h

theorem setIndex_taken (f : Flags) (h : (setIndex f).taken=false) : f.taken=false := h

/-- States that agree let a search find the same LEB. -/
theorem Same.find (h : Same s t) (env : Env) (k : ℕ) :
    (ubifsFindDirtyIdxLeb env k s).1=(ubifsFindDirtyIdxLeb env k t).1∧
      Same (ubifsFindDirtyIdxLeb env k s).2 (ubifsFindDirtyIdxLeb env k t).2 := by
  have hstops : (fun x => scanDirtyIdxStops env (s.lprops x))=
      fun x => scanDirtyIdxStops env (t.lprops x) := funext (h.stops env)
  unfold ubifsFindDirtyIdxLeb findDirtiestIdxLeb
  rw [←h.dirtyIdx,←dirtiest_congr h.flags]
  rcases dirtiest s.lprops s.dirtyIdx with ⟨_ | y,arr⟩
  · unfold findDirtyIdxLeb
    dsimp only
    rw [hstops]
    rcases (env.search k).find? fun x => scanDirtyIdxStops env (t.lprops x) with _ | y
    · unfold getIdxGcLeb
      rw [←h.idxGc]
      rcases s.idxGc with _ | ⟨y,rest⟩
      · exact ⟨rfl,⟨rfl,rfl,h.flags,h.untaken⟩⟩
      · exact ⟨rfl,h.change setIndex_taken y arr rest⟩
    · have hsame := h.change setTaken_taken y arr s.idxGc
      rw [h.idxGc] at hsame
      refine ⟨rfl,?_⟩
      have hs : s.idxGc=t.idxGc := h.idxGc
      have heta : ({s with dirtyIdx := arr} : State)={s with dirtyIdx := arr,idxGc := t.idxGc} := by
        rw [←hs]
      rw [heta]
      exact hsame
  · have hsame := h.change setTaken_taken y arr s.idxGc
    refine ⟨rfl,?_⟩
    have heta : ({t with dirtyIdx := arr} : State)={t with dirtyIdx := arr,idxGc := s.idxGc} := by
      rw [h.idxGc]
    dsimp only
    rw [heta]
    exact hsame

/-- The space of a taken LEB may change. -/
theorem Same.note (h : Same s t) (env : Env) (l : Layout)
    (htaken : (s.lprops lnum).flags.taken=true) : Same (noteLayout env s lnum l) t := by
  unfold noteLayout
  split_ifs
  · exact ⟨h.dirtyIdx,h.idxGc,h.flags,h.untaken⟩
  · refine ⟨h.dirtyIdx,h.idxGc,fun x => ?_,fun x hx => ?_⟩
    · by_cases hl : x=lnum
      · rw [hl]
        exact (changeOneLp_flags _ _ _).trans (h.flags lnum)
      · rw [←h.flags x]
        exact congrArg Lprops.flags (changeOneLp_other _ _ _ hl)
    · by_cases hl : x=lnum
      · have hflags : ((ubifsChangeOneLp s lnum (some (env.lebSize-l.ilebLen)) (some l.dirt)
            id).lprops x).flags=(s.lprops lnum).flags := by
          rw [hl]
          exact changeOneLp_flags _ _ _
        rw [hflags,htaken] at hx
        cases hx
      · have hkeep := changeOneLp_other (s := s) (some (env.lebSize-l.ilebLen)) (some l.dirt) id hl
        rw [hkeep] at hx ⊢
        exact h.untaken x hx

/-- The LEBs that wait for garbage collection are taken. -/
def GcTaken (s : State) : Prop := ∀ x∈s.idxGc,(s.lprops x).flags.taken=true

/-- Nothing but the LEB found changes its flags. -/
theorem Found.other (h : Found env k s lnum s') (hx : x≠lnum) :
    (s'.lprops x).flags=(s.lprops x).flags := by
  cases h <;> exact congrArg Lprops.flags (changeOneLp_other _ _ _ hx)

theorem Found.taken (h : Found env k s lnum s') (hgc : GcTaken s) :
    (s'.lprops lnum).flags.taken=true := by
  cases h with
  | array arr hlen hfree hidx => exact congrArg Flags.taken (changeOneLp_flags _ _ _)
  | scan hlt hfree hidx => exact congrArg Flags.taken (changeOneLp_flags _ _ _)
  | gc rest hhead =>
    refine (congrArg Flags.taken (changeOneLp_flags _ _ _)).trans ?_
    exact hgc lnum (by
      rw [hhead]
      exact List.mem_cons_self)

theorem Found.keepsTaken (h : Found env k s lnum s') (hgc : GcTaken s)
    (hx : (s.lprops x).flags.taken=true) : (s'.lprops x).flags.taken=true := by
  by_cases hl : x=lnum
  · rw [hl]
    exact h.taken hgc
  · rw [h.other hl]
    exact hx

theorem Found.gcTaken (h : Found env k s lnum s') (hgc : GcTaken s) : GcTaken s' := by
  have hkeep : ∀ x∈s.idxGc,(s'.lprops x).flags.taken=true := fun x hx =>
    h.keepsTaken hgc (hgc x hx)
  cases h with
  | array arr hlen hfree hidx => exact hkeep
  | scan hlt hfree hidx => exact hkeep
  | gc rest hhead =>
    intro x hx
    refine hkeep x ?_
    rw [hhead]
    exact List.mem_cons_of_mem _ hx

theorem Found.enext (h : Found env k s lnum s') : s'.enext=s.enext := by
  cases h <;> rfl

theorem note_flags (env : Env) (s : State) (lnum : ℕ) (l : Layout) (x : ℕ) :
    ((noteLayout env s lnum l).lprops x).flags=(s.lprops x).flags := by
  unfold noteLayout
  split_ifs
  · rfl
  · by_cases hl : x=lnum
    · rw [hl]
      exact changeOneLp_flags _ _ _
    · exact congrArg Lprops.flags (changeOneLp_other _ _ _ hl)

theorem note_idxGc (env : Env) (s : State) (lnum : ℕ) (l : Layout) :
    (noteLayout env s lnum l).idxGc=s.idxGc := by
  unfold noteLayout
  split_ifs <;> rfl

theorem note_enext (env : Env) (s : State) (lnum : ℕ) (l : Layout) :
    (noteLayout env s lnum l).enext=l.enext := by
  unfold noteLayout
  split_ifs <;> rfl

theorem note_dirtyIdx (env : Env) (s : State) (lnum : ℕ) (l : Layout) :
    (noteLayout env s lnum l).dirtyIdx=s.dirtyIdx := by
  unfold noteLayout
  split_ifs <;> rfl

theorem note_gcTaken (l : Layout) (hgc : GcTaken s) : GcTaken (noteLayout env s lnum l) := by
  intro x hx
  rw [note_idxGc] at hx
  rw [note_flags]
  exact hgc x hx

/-! ## The search comes to an end -/

/-- How many LEBs a search can still find, and entries of the array it can still drop. -/
def remaining (env : Env) (s : State) : ℕ :=
  s.dirtyIdx.length+
    ((Finset.range env.lebCnt).filter fun x =>
      (s.lprops x).flags.taken=false∧(s.lprops x).flags.index=true).card+
    s.idxGc.length

theorem note_remaining (l : Layout) : remaining env (noteLayout env s lnum l)=remaining env s := by
  unfold remaining
  simp only [note_flags,note_idxGc,note_dirtyIdx]

theorem Found.remaining_lt (h : Found env k s lnum s') (hgc : GcTaken s) :
    remaining env s'<remaining env s := by
  have hsub : ((Finset.range env.lebCnt).filter fun x =>
      (s'.lprops x).flags.taken=false∧(s'.lprops x).flags.index=true) ⊆
      (Finset.range env.lebCnt).filter fun x =>
        (s.lprops x).flags.taken=false∧(s.lprops x).flags.index=true := by
    intro x hx
    rw [Finset.mem_filter] at hx ⊢
    have hne : x≠lnum := by
      intro hl
      have htaken := h.taken hgc
      rw [hl,htaken] at hx
      exact absurd hx.2.1 (by decide)
    rw [←h.other hne]
    exact hx
  have hle := Finset.card_le_card hsub
  cases h with
  | array arr hlen hfree hidx => exact Nat.add_lt_add_right (Nat.add_lt_add_of_lt_of_le hlen hle) _
  | scan hlt hfree hidx =>
    have htaken := (Found.scan hlt hfree hidx : Found env k s lnum _).taken hgc
    have hlt' := Finset.card_lt_card (Finset.ssubset_iff_of_subset hsub |>.mpr
      ⟨lnum,Finset.mem_filter.mpr ⟨Finset.mem_range.mpr hlt,hfree,hidx⟩,fun hmem => by
        have hfree' := (Finset.mem_filter.mp hmem).2.1
        rw [htaken] at hfree'
        cases hfree'⟩)
    exact Nat.add_lt_add_right (Nat.add_lt_add_of_le_of_lt (Nat.zero_le _) hlt') _
  | gc rest hhead =>
    have hlen : rest.length<s.idxGc.length := by
      rw [hhead]
      exact Nat.lt_succ_self _
    exact Nat.add_lt_add_of_le_of_lt (Nat.add_le_add (Nat.zero_le _) hle) hlen

/-- One round of the loop. -/
theorem layout_found (h : ubifsFindDirtyIdxLeb env k w.st=(some lnum,s')) :
    layoutLebInGaps env k w=
      if env.fails k then
        (.failed,{w with st := s',took := w.took++[lnum]}.write k lnum)
      else (.wrote (layoutLeb env lnum s'.enext).written,
        {{w with st := s',took := w.took++[lnum]}.write k lnum with
          st := noteLayout env s' lnum (layoutLeb env lnum s'.enext)}) := by
  unfold layoutLebInGaps
  rw [h]

theorem layout_none (h : ubifsFindDirtyIdxLeb env k w.st=(none,s')) :
    layoutLebInGaps env k w=(.noSpace,{w with st := s'}) := by
  unfold layoutLebInGaps
  rw [h]

/-- The loop ends. -/
theorem gapLoop_ends {fuel p : ℕ} (hgc : GcTaken w.st) (hfuel : remaining env w.st<fuel) :
    ∃ r,gapLoop env fuel p cnt w=some r := by
  induction fuel generalizing p cnt w with
  | zero => omega
  | succ fuel ih =>
    unfold gapLoop
    rcases hfind : ubifsFindDirtyIdxLeb env p w.st with ⟨_ | lnum,s'⟩
    · rw [layout_none hfind]
      exact ⟨_,rfl⟩
    · rw [layout_found hfind]
      cases hfails : env.fails p
      · rw [if_neg Bool.false_ne_true]
        dsimp only
        split_ifs
        · have hfound := found_of_find hfind
          refine ih (note_gcTaken _ (hfound.gcTaken hgc)) ?_
          have hlt := hfound.remaining_lt hgc
          rw [note_remaining]
          omega
        · exact ⟨_,rfl⟩
      · exact ⟨_,rfl⟩

/-! ## Where the loop runs over the end -/

theorem picks_same (h : Same s t) (env : Env) (n k : ℕ) : picks env n k s=picks env n k t := by
  induction n generalizing s t k with
  | zero => rfl
  | succ n ih =>
    have hfind := h.find env k
    unfold picks
    rcases hs : ubifsFindDirtyIdxLeb env k s with ⟨_ | y,s'⟩ <;>
      rcases ht : ubifsFindDirtyIdxLeb env k t with ⟨_ | z,t'⟩ <;> rw [hs,ht] at hfind
    · exact absurd hfind.1 (by simp)
    · exact absurd hfind.1 (by simp)
    · cases hfind.1
      dsimp only
      rw [ih hfind.2]

theorem overruns_same {enext : List ℕ} (h : Same s t) :
    Overruns env n k s enext cnt ↔ Overruns env n k t enext cnt := by
  unfold Overruns
  rw [picks_same h]

theorem getLebCnt_mono {a b : ℤ} (h : a≤ b) : getLebCnt env a≤getLebCnt env b := by
  unfold getLebCnt
  exact Nat.div_le_div_right (by omega)

theorem not_overruns_of_none {enext : List ℕ} (hfind : ubifsFindDirtyIdxLeb env k s=(none,s')) :
    ¬Overruns env n k s enext cnt := by
  rintro ⟨lebs,hpicks,-⟩
  unfold picks at hpicks
  rw [hfind] at hpicks
  cases hpicks

theorem overruns_zero {enext : List ℕ} (hfind : ubifsFindDirtyIdxLeb env k s=(some lnum,s')) :
    Overruns env 0 k s enext cnt ↔ env.fails k=false := by
  constructor
  · rintro ⟨_,-,hfails,-⟩
    exact hfails 0 (Nat.zero_le _)
  · intro hfails
    refine ⟨[lnum],?_,fun i hi => ?_,Or.inl rfl⟩
    · unfold picks
      rw [hfind]
      rfl
    · rw [Nat.le_zero.mp hi]
      exact hfails

/-- The loop runs over the end exactly when it goes on after this LEB and the rest does. -/
theorem overruns_succ {enext : List ℕ} (hfind : ubifsFindDirtyIdxLeb env k s=(some lnum,s')) :
    Overruns env (n+1) k s enext cnt ↔ env.fails k=false∧
      env.ilebCnt<getLebCnt env (cnt-(layoutLeb env lnum enext).written)∧
      Overruns env n (k+1) s' (layoutLeb env lnum enext).enext
        (cnt-(layoutLeb env lnum enext).written) := by
  have hpicks : ∀ n,picks env (n+1) k s=(picks env n (k+1) s').map fun lebs => lnum::lebs := by
    intro n
    rw [picks,hfind]
  have hsum : ∀ x : ℕ,cnt-((layoutLeb env lnum enext).written+x : ℕ)=
      cnt-(layoutLeb env lnum enext).written-x := by
    intro x
    omega
  constructor
  · rintro ⟨lebs,hlebs,hfails,hneed⟩
    rw [hpicks] at hlebs
    obtain ⟨rest,hrest,rfl⟩ := Option.map_eq_some_iff.mp hlebs
    have hneed' := hneed.resolve_left (Nat.succ_ne_zero n)
    rw [List.take_succ_cons,placed,hsum] at hneed'
    refine ⟨hfails 0 (Nat.zero_le _),hneed'.trans_le (getLebCnt_mono (by omega)),rest,hrest,
      fun i hi => ?_,Or.inr hneed'⟩
    have hnext := hfails (i+1) (Nat.succ_le_succ hi)
    rwa [show k+(i+1)=k+1+i by omega] at hnext
  · rintro ⟨hfirst,hgo,rest,hrest,hfails,hneed⟩
    refine ⟨lnum::rest,?_,fun i hi => ?_,Or.inr ?_⟩
    · rw [hpicks,hrest]
      rfl
    · cases i with
      | zero => exact hfirst
      | succ i =>
        rw [show k+(i+1)=k+1+i by omega]
        exact hfails i (Nat.le_of_succ_le_succ hi)
    · rw [List.take_succ_cons,placed,hsum]
      rcases hneed with rfl | hneed
      · rw [List.take_zero,placed,Int.natCast_zero,Int.sub_zero]
        exact hgo
      · exact hneed

/-- What a run of the loop from an entry of the array on writes. -/
structure Writes (env : Env) (p : ℕ) (cnt : ℤ) (w w' : Progress) : Prop where
  keeps : ∀ q∈w.touched,q∈w'.touched
  first : p∈w'.touched
  beyond : ∀ n,Overruns env n p w.st w.st.enext cnt → p+n+1∈w'.touched
  within : ∀ n,¬Overruns env n p w.st w.st.enext cnt → ∀ q∈w'.touched,q∈w.touched∨q≤ p+n

theorem gapLoop_writes {fuel p : ℕ} {ok : Bool} (hgc : GcTaken w.st)
    (h : gapLoop env fuel p cnt w=some (ok,w')) : Writes env p cnt w w' := by
  induction fuel generalizing p cnt w with
  | zero => cases h
  | succ fuel ih =>
    unfold gapLoop at h
    rcases hfind : ubifsFindDirtyIdxLeb env p w.st with ⟨_ | lnum,s'⟩
    · rw [layout_none hfind] at h
      cases h
      refine ⟨fun q hq => List.mem_cons_of_mem _ hq,List.mem_cons_self,
        fun n hn => absurd hn (not_overruns_of_none hfind),fun n _ q hq => ?_⟩
      rcases List.mem_cons.mp hq with rfl | hq
      · exact Or.inr (Nat.le_add_right _ _)
      · exact Or.inl hq
    · have hfound := found_of_find hfind
      rw [layout_found hfind] at h
      cases hfails : env.fails p
      · rw [hfails,if_neg Bool.false_ne_true] at h
        dsimp only at h
        rw [hfound.enext] at h
        have hsame : Same (noteLayout env s' lnum (layoutLeb env lnum w.st.enext)) s' :=
          (Same.refl s').note env _ (hfound.taken hgc)
        split_ifs at h with hgo
        · have hrest := ih (note_gcTaken _ (hfound.gcTaken hgc)) h
          refine ⟨fun q hq => hrest.keeps q (List.mem_cons_of_mem _ hq),
            hrest.keeps p List.mem_cons_self,fun n hn => ?_,fun n hn q hq => ?_⟩
          · cases n with
            | zero => exact hrest.first
            | succ n =>
              rw [show p+(n+1)+1=p+1+n+1 by omega]
              refine hrest.beyond n ?_
              rw [note_enext,overruns_same hsame]
              exact ((overruns_succ hfind).mp hn).2.2
          · cases n with
            | zero => exact absurd ((overruns_zero hfind).mpr hfails) hn
            | succ n =>
              have hn' : ¬Overruns env n (p+1) s' (layoutLeb env lnum w.st.enext).enext
                  (cnt-(layoutLeb env lnum w.st.enext).written) := fun hover =>
                hn ((overruns_succ hfind).mpr ⟨hfails,hgo,hover⟩)
              rw [←overruns_same hsame] at hn'
              have hq' := hrest.within n (by
                rw [note_enext]
                exact hn') q hq
              rcases hq' with hq' | hq'
              · rcases List.mem_cons.mp hq' with rfl | hq'
                · exact Or.inr (Nat.le_add_right _ _)
                · exact Or.inl hq'
              · exact Or.inr (by omega)
        · cases h
          refine ⟨fun q hq => List.mem_cons_of_mem _ (List.mem_cons_of_mem _ hq),
            List.mem_cons_of_mem _ List.mem_cons_self,fun n hn => ?_,fun n hn q hq => ?_⟩
          · cases n with
            | zero => exact List.mem_cons_self
            | succ n => exact absurd ((overruns_succ hfind).mp hn).2.1 hgo
          · cases n with
            | zero => exact absurd ((overruns_zero hfind).mpr hfails) hn
            | succ n =>
              rcases List.mem_cons.mp hq with rfl | hq
              · exact Or.inr (by omega)
              · rcases List.mem_cons.mp hq with rfl | hq
                · exact Or.inr (Nat.le_add_right _ _)
                · exact Or.inl hq
      · rw [hfails,if_pos rfl] at h
        cases h
        refine ⟨fun q hq => List.mem_cons_of_mem _ hq,List.mem_cons_self,fun n hn => ?_,
          fun n _ q hq => ?_⟩
        · cases n with
          | zero => exact absurd ((overruns_zero hfind).mp hn) (by simp [hfails])
          | succ n => exact absurd ((overruns_succ hfind).mp hn).1 (by simp [hfails])
        · rcases List.mem_cons.mp hq with rfl | hq
          · exact Or.inr (Nat.le_add_right _ _)
          · exact Or.inl hq

/-! ## What is given back -/

/-- The array names the LEBs taken, in order, and other LEBs are as they were. -/
structure Noted (s : State) (p : ℕ) (w : Progress) : Prop where
  len : w.took.length=p
  cell : ∀ i (h : i<w.took.length),w.gapLebs i=(w.took.get ⟨i,h⟩ : ℕ)
  other : ∀ x,x∉w.took → ((w.st.lprops x).flags.taken)=(s.lprops x).flags.taken

theorem Noted.take {p : ℕ} (h : Noted s p w) (hfound : Found env k w.st lnum s') (t : State)
    (ht : ∀ x,(t.lprops x).flags=(s'.lprops x).flags) :
    Noted s (p+1)
      {{w with st := s',took := w.took++[lnum]}.write p lnum with st := t} := by
  refine ⟨?_,fun i hi => ?_,fun x hx => ?_⟩
  · exact (List.length_append).trans (by rw [h.len]; rfl)
  · change update w.gapLebs p (lnum : ℤ) i=_
    by_cases hip : i=p
    · subst hip
      rw [update_self]
      change (lnum : ℤ)=(((w.took++[lnum]).get ⟨i,hi⟩ : ℕ) : ℤ)
      rw [List.get_eq_getElem,List.getElem_append_right (by rw [h.len])]
      simp
    · have hlt : i<w.took.length := by
        have hi' : i<(w.took++[lnum]).length := hi
        rw [List.length_append] at hi'
        have hlen := h.len
        simp only [List.length_cons,List.length_nil] at hi'
        omega
      rw [update_of_ne hip,h.cell i hlt]
      change _=(((w.took++[lnum]).get ⟨i,hi⟩ : ℕ) : ℤ)
      rw [List.get_eq_getElem,List.get_eq_getElem,List.getElem_append_left hlt]
  · have hx' : x∉w.took++[lnum] := hx
    rw [List.mem_append,List.mem_singleton,not_or] at hx'
    rw [ht,hfound.other hx'.2]
    exact h.other x hx'.1

theorem Noted.close {p : ℕ} (h : Noted s p w) : Noted s p (w.write p (-1))∧
    (w.write p (-1)).gapLebs p=-1 := by
  refine ⟨⟨h.len,fun i hi => ?_,h.other⟩,update_self _ _ _⟩
  have hi' : i<w.took.length := hi
  have hne : i≠p := by
    have hlen := h.len
    omega
  exact (update_of_ne hne _ _).trans (h.cell i hi')

theorem gapLoop_noted {fuel p : ℕ} (hw : Noted s p w) (h : gapLoop env fuel p cnt w=some (true,w')) :
    ∃ q,Noted s q w'∧w'.gapLebs q=-1 := by
  induction fuel generalizing p cnt w with
  | zero => cases h
  | succ fuel ih =>
    unfold gapLoop at h
    rcases hfind : ubifsFindDirtyIdxLeb env p w.st with ⟨_ | lnum,s'⟩
    · rw [layout_none hfind] at h
      cases h
      have hflags := find_none_lprops hfind
      refine ⟨p,Noted.close ⟨hw.len,hw.cell,fun x hx => ?_⟩⟩
      rw [hflags]
      exact hw.other x hx
    · have hfound := found_of_find hfind
      rw [layout_found hfind] at h
      cases hfails : env.fails p
      · rw [hfails,if_neg Bool.false_ne_true] at h
        dsimp only at h
        have hnext := hw.take hfound (noteLayout env s' lnum (layoutLeb env lnum s'.enext))
          (note_flags env s' lnum _)
        split_ifs at h with hgo
        · exact ih hnext h
        · cases h
          exact ⟨p+1,hnext.close⟩
      · rw [hfails,if_pos rfl] at h
        cases h

/-- What the array names loses its flag, and nothing else does. -/
theorem returnGapLebs_clears {gapLebs : ℕ → ℤ} (rest : List ℕ) (p : ℕ) (s : State)
    (hcell : ∀ i (h : i<rest.length),gapLebs (p+i)=(rest.get ⟨i,h⟩ : ℕ))
    (hend : gapLebs (p+rest.length)=-1) :
    ∃ s',returnGapLebs gapLebs (rest.length+1) p s=some s'∧
      ∀ x,(s'.lprops x).flags.taken=if x∈rest then false else (s.lprops x).flags.taken := by
  induction rest generalizing p s with
  | nil =>
    refine ⟨s,?_,fun x => rfl⟩
    have hend' : gapLebs p=-1 := hend
    unfold returnGapLebs
    rw [if_pos hend']
  | cons lnum rest ih =>
    have hfirst : gapLebs p=(lnum : ℕ) := hcell 0 (Nat.succ_pos _)
    have hclear := ih (p+1) (ubifsChangeOneLp s lnum none none clearTaken)
      (fun i hi => by
        have hnext := hcell (i+1) (Nat.succ_lt_succ hi)
        rwa [show p+(i+1)=p+1+i by omega] at hnext)
      (by rwa [List.length_cons,show p+(rest.length+1)=p+1+rest.length by omega] at hend)
    obtain ⟨s',hs',hflags⟩ := hclear
    refine ⟨s',?_,fun x => ?_⟩
    · rw [List.length_cons,returnGapLebs,hfirst,if_neg (by omega),Int.toNat_natCast]
      exact hs'
    · rw [hflags]
      by_cases hx : x=lnum
      · rw [if_pos (List.mem_cons.mpr (Or.inl hx)),hx,changeOneLp_flags]
        exact ite_self _
      · rw [changeOneLp_other _ _ _ hx]
        simp only [List.mem_cons,hx,false_or]

theorem not_safe_of_overruns (cnt : ℤ) (hgc : GcTaken s)
    (hover : Overruns env s.idxLebs 0 s s.enext cnt) : ¬SafeInGaps env s cnt := by
  rintro ⟨fuel,ok,w,hrun,hinside,-⟩
  have hstart : GcTaken (Progress.mk s (fun _ => 0) [] []).st := hgc
  have hlast := hinside _ ((gapLoop_writes hstart hrun).beyond s.idxLebs hover)
  omega

theorem safe_of_not_overruns (hgc : GcTaken s) (hover : ¬Overruns env s.idxLebs 0 s s.enext cnt) :
    SafeInGaps env s cnt := by
  have hstart : GcTaken (Progress.mk s (fun _ => 0) [] []).st := hgc
  obtain ⟨⟨ok,w⟩,hrun⟩ : ∃ r,layoutInGaps env (remaining env s+1) s cnt=some r :=
    gapLoop_ends hstart (Nat.lt_succ_self _)
  refine ⟨_,ok,w,hrun,fun q hq => ?_,fun hok => ?_⟩
  · rcases (gapLoop_writes hstart hrun).within s.idxLebs hover q hq with hq | hq
    · cases hq
    · omega
  · subst hok
    have hempty : Noted s 0 ⟨s,fun _ => 0,[],[]⟩ :=
      ⟨rfl,fun i hi => absurd hi (Nat.not_lt_zero i),fun _ _ => rfl⟩
    obtain ⟨q,hnoted,hend⟩ := gapLoop_noted hempty hrun
    have hlen := hnoted.len
    obtain ⟨s',hs',hflags⟩ := returnGapLebs_clears w.took 0 w.st
      (fun i hi => by
        rw [Nat.zero_add]
        exact hnoted.cell i hi)
      (by
        rw [Nat.zero_add,hlen]
        exact hend)
    refine ⟨_,s',hs',fun x => ?_⟩
    rw [hflags]
    by_cases hx : x∈w.took
    · rw [if_pos hx,if_pos hx]
    · rw [if_neg hx,if_neg hx]
      exact hnoted.other x hx

/-- The loop stays inside the array exactly when no more LEBs than `idx_lebs` are taken before the
rest fits. -/
theorem safeInGaps_iff (env : Env) (s : State) (cnt : ℤ)
    (hgc : ∀ x∈s.idxGc,(s.lprops x).flags.taken=true) :
    SafeInGaps env s cnt ↔ ¬Overruns env s.idxLebs 0 s s.enext cnt :=
  ⟨fun hsafe hover => not_safe_of_overruns cnt hgc hover hsafe,safe_of_not_overruns hgc⟩

/-- A full index head and no empty LEB; the LEBs that wait for garbage collection are full of nodes
of the old index. -/
def fullEnv : Env where
  lebSize := 15360
  minIoSize := 8
  minIdxNodeSz := 48
  maxIdxNodeSz := 192
  keyLen := 8
  iheadOffs := 15360
  ilebCnt := 0
  nodes _ := (List.range 80).map fun i => ⟨192*i,188,.old⟩
  search _ := [0,1,2]
  fails _ := false
  lebCnt := 3
  search_lt _ lnum h := by
    revert h lnum
    decide

/-- LEB 0 is the index head; ten znodes of eight children are dirty. -/
def fullState (idxGc : List ℕ) : State where
  lprops lnum := if lnum=0 then ⟨0,0,⟨.uncat,true,true⟩⟩ else ⟨15360,0,⟨.uncat,true,false⟩⟩
  idxLebs := 1
  dirtyIdx := []
  idxGc := idxGc
  enext := List.replicate 10 8

theorem safeInGaps_iff_example : SafeInGaps fullEnv (fullState [1]) 10 :=
  (safeInGaps_iff fullEnv (fullState [1]) 10 (by decide)).mpr (by
    rintro ⟨lebs,hlebs,-⟩
    have hnone : picks fullEnv 2 0 (fullState [1])=none := by decide +kernel
    exact absurd (hnone.symm.trans hlebs) (by simp))

/-- Two LEBs that wait for garbage collection and take no node are one too many. -/
theorem gaps_overrun_array :
    ¬∀ (env : Env) (s : State) (cnt : ℤ),(∀ x∈s.idxGc,(s.lprops x).flags.taken=true) →
      SafeInGaps env s cnt := by
  intro h
  refine not_safe_of_overruns 10 (show GcTaken (fullState [1,2]) by
    unfold GcTaken
    decide) ?_ (h fullEnv (fullState [1,2]) 10 (by decide))
  exact ⟨[1,2],by decide +kernel,fun _ _ => rfl,Or.inr (by decide +kernel)⟩

end ArdroneKernel.UbifsGaps
