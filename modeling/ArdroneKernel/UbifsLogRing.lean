import ArdroneKernel.UbifsLog
import Mathlib.Tactic.Linarith
import Mathlib.Tactic.Ring

/-!
# The log as a ring

The log LEBs from the tail to the head are a segment of a ring. The log LEBs
that a mount reads from a commit start node are those of the segment from
there, when nothing outside it is as new as that node.
-/

namespace ArdroneKernel.UbifsLog

open RingSegments

variable {c : Info} {s s' : State} {m l : ℕ}

/-! ## Places -/

/-- A LEB of the log. -/
def IsLog (c : Info) (l : ℕ) : Prop := InRing UBIFS_LOG_LNUM c.logLebs l

theorem nextLogLnum_eq (h : 0<c.logLebs) : nextLogLnum c l=next UBIFS_LOG_LNUM c.logLebs l := by
  unfold nextLogLnum next Info.logLast
  by_cases hlast : UBIFS_LOG_LNUM+c.logLebs≤l+1
  · rw [if_pos hlast,if_pos (by omega)]
  · rw [if_neg hlast,if_neg (by omega)]

/-- How far the head is from a LEB. -/
def toHead (c : Info) (s : State) (m : ℕ) : ℕ := dist c.logLebs m s.lheadLnum

/-- The LEBs with nodes from one up to the head. -/
def Within (c : Info) (s : State) (m l : ℕ) : Prop :=
  IsLog c l∧(dist c.logLebs m l<toHead c s m∨l=s.lheadLnum∧0<s.lheadOffs)

/-- The bytes from the tail to the head. -/
def span (c : Info) (s : State) : ℕ := toHead c s s.ltailLnum*c.lebSize+s.lheadOffs

/-- The bytes between the tail and the head that are in use: the log has at
least the commit start node of its tail, so it is full where they meet. -/
def usedLogBytes (c : Info) (s : State) : ℕ :=
  if span c s=0 then c.logBytes else span c s

/-- Where the log is not full up to a tail that is not its first LEB,
`empty_log_bytes` is exact. -/
theorem emptyLogBytes_eq (hhead : IsLog c s.lheadLnum) (htail : IsLog c s.ltailLnum)
    (hoffs : s.lheadOffs≤c.lebSize) (hleb : 0<c.lebSize)
    (hfull : s.lheadLnum+1=s.ltailLnum → s.lheadOffs≠c.lebSize) :
    emptyLogBytes c s=(c.logBytes : ℤ)-span c s := by
  have hh := hhead
  have ht := htail
  unfold IsLog InRing at hh ht
  unfold emptyLogBytes span toHead RingSegments.dist Info.logBytes
  by_cases hle : s.ltailLnum≤ s.lheadLnum
  · have ⟨k,hk⟩ := Nat.exists_eq_add_of_le hle
    have hsub : s.lheadLnum-s.ltailLnum=k := by omega
    have hge : (s.ltailLnum : ℤ)*c.lebSize≤ s.lheadLnum*c.lebSize+s.lheadOffs := by
      push_cast
      nlinarith [Int.natCast_nonneg (k*c.lebSize),Int.natCast_nonneg s.lheadOffs]
    rw [if_pos hle,if_pos hge,hsub,hk]
    push_cast
    ring
  · have ⟨k,hk⟩ := Nat.exists_eq_add_of_lt (not_le.mp hle)
    have ⟨d,hd⟩ : ∃ d,c.logLebs=d+(k+1) := ⟨c.logLebs-(k+1),by omega⟩
    have hsub : s.lheadLnum+c.logLebs-s.ltailLnum=d := by omega
    have hlt : s.lheadOffs<(k+1)*c.lebSize := by
      rcases Nat.eq_zero_or_pos k with hzero|hpos
      · rw [hzero,Nat.zero_add,Nat.one_mul]
        omega
      · have htwo : 2*c.lebSize≤(k+1)*c.lebSize := Nat.mul_le_mul_right _ (by omega)
        omega
    have hnot : ¬(s.ltailLnum : ℤ)*c.lebSize≤ s.lheadLnum*c.lebSize+s.lheadOffs := by
      push_cast
      nlinarith
    rw [if_neg hle,if_neg hnot,hsub,hk,hd]
    push_cast
    ring

theorem within_of_dist {k : ℕ} (hm : IsLog c m) (hl : IsLog c l) (hhead : IsLog c s.lheadLnum)
    (hk : dist c.logLebs m l=k) (hout : ¬Within c s m l) {x : ℕ} (hx : Within c s m x) :
    dist c.logLebs m x<k := by
  by_contra hge
  rcases hx with ⟨hxlog,hlt|⟨hxh,hoffs⟩⟩
  · exact hout ⟨hl,.inl (by omega)⟩
  · refine hout ⟨hl,?_⟩
    rw [hxh,not_lt,←hk] at hge
    rcases Nat.lt_or_ge (dist c.logLebs m l) (dist c.logLebs m s.lheadLnum) with hlt|hle
    · exact .inl hlt
    · exact .inr ⟨dist_inj hm hl hhead (Nat.le_antisymm hge hle),hoffs⟩

/-! ## What a mount reads -/

/-- A reference node for a bud with a node at a place. -/
def Refers (n : Node) (x : ℕ×ℕ) : Prop := ∃ offs jhead,n.body=.ref x.1 offs jhead∧offs≤x.2

/-- A LEB of the segment has a reference node for a bud with a node at a place. -/
def Referred (c : Info) (s : State) (m : ℕ) (x : ℕ×ℕ) : Prop :=
  ∃ l n,Within c s m l∧n∈(s.flash l).nodes∧Refers n x

/-- The log from a LEB with a commit start node refers to every bud that has
one of some nodes, or that a journal head may write to, and what other LEBs
hold is older. -/
structure Covers (c : Info) (s : State) (m cmtNo sqnum : ℕ) (nodes : List (ℕ×ℕ)) : Prop where
  /-- The commit start node is in the segment. -/
  start : Within c s m m
  first : (s.flash m).nodes.head?=some ⟨sqnum,.cs cmtNo⟩
  inside : ∀ l,Within c s m l → (s.flash l).mapped=true∧(s.flash l).nodes≠[]∧
    ∀ n∈(s.flash l).nodes,sqnum≤n.sqnum
  outside : ∀ l,IsLog c l → ¬Within c s m l → ∀ n∈(s.flash l).nodes,n.sqnum<sqnum
  latest : sqnum≤ s.maxSqnum
  nodes : ∀ x∈nodes,Referred c s m x
  heads : ∀ j l o,s.wbuf j=some (l,o) → o<c.lebSize → Referred c s m (l,o)

/-- A mount reads exactly the LEBs of a segment. -/
def ReadsSegment (c : Info) (s : State) (m k : ℕ) (lebs : List (ℕ×List Node)) : Prop :=
  (∀ leb∈lebs,Within c s m leb.1∧leb.2=(s.flash leb.1).nodes)∧
    ∀ x,Within c s m x → k≤dist c.logLebs m x → (x,(s.flash x).nodes)∈lebs

section

variable {cmtNo sqnum : ℕ} {nodes : List (ℕ×ℕ)} (erased : ℕ → Bool)

theorem shown_within (h : Covers c s m cmtNo sqnum nodes) (hl : Within c s m l) :
    shown s erased l=(s.flash l).nodes := by
  unfold shown
  rw [(h.inside l hl).1]
  rfl

theorem shown_subset {n : Node} (hn : n∈shown s erased l) : n∈(s.flash l).nodes := by
  unfold shown at hn
  split at hn
  · exact absurd hn List.not_mem_nil
  · exact hn

theorem replayLog_reads (h : Covers c s m cmtNo sqnum nodes) (hhead : IsLog c s.lheadLnum) :
    ∀ fuel k l,fuel+k=c.logLebs → IsLog c l → (k<c.logLebs → dist c.logLebs m l=k) →
      ∃ lebs,replayLog c s erased fuel l (some sqnum)=some lebs∧ReadsSegment c s m k lebs := by
  have hm := h.start.1
  intro fuel
  induction fuel with
  | zero =>
    intro k l hk _ _
    refine ⟨[],rfl,fun leb hleb => absurd hleb List.not_mem_nil,fun x hx hle => ?_⟩
    have hlt := dist_lt hm hx.1
    omega
  | succ fuel ih =>
    intro k l hk hl hdist
    have hdist := hdist (by omega)
    unfold replayLog
    by_cases hin : Within c s m l
    · have ⟨_,hne,hnew⟩ := h.inside l hin
      have hshown := shown_within erased h hin
      have ⟨snod,snods,hnodes⟩ := List.exists_cons_of_ne_nil hne
      rw [hnodes] at hshown hnew
      have ⟨hfirst,hrest⟩ := List.forall_mem_cons.mp hnew
      have hany : (snods.any fun n => n.sqnum<sqnum)=false := by
        rw [List.any_eq_false]
        intro n hn
        have hle := hrest n hn
        rw [decide_eq_true_eq]
        omega
      have hlogLebs : 0<c.logLebs := by omega
      have hnext : k+1<c.logLebs → dist c.logLebs m (nextLogLnum c l)=k+1 := by
        intro hlt
        have hne : next UBIFS_LOG_LNUM c.logLebs l≠m := by
          intro heq
          have := (next_eq_start hm hl).mp heq
          omega
        rw [nextLogLnum_eq hlogLebs,dist_next hm hl hne,hdist]
      have hlog : IsLog c (nextLogLnum c l) := by
        rw [nextLogLnum_eq hlogLebs]
        exact next_inRing hl
      have ⟨lebs,hreplay,hall,hcov⟩ := ih (k+1) (nextLogLnum c l) (by omega) hlog hnext
      rw [hshown]
      dsimp only
      rw [Option.bind_some,if_neg (not_lt.mpr hfirst),hany,hreplay]
      refine ⟨(l,snod::snods)::lebs,rfl,List.forall_mem_cons.mpr ⟨⟨hin,hnodes.symm⟩,hall⟩,?_⟩
      intro x hx hle
      rcases Nat.lt_or_ge k (dist c.logLebs m x) with hlt|hge
      · exact List.mem_cons_of_mem _ (hcov x hx hlt)
      · have heq : x=l := dist_inj hm hx.1 hl (by omega)
        rw [heq,hnodes]
        exact List.mem_cons_self
    · -- The LEB after the head is empty, or it is older than the commit start node.
      have hnone : ReadsSegment c s m k [] := by
        refine ⟨fun leb hleb => absurd hleb List.not_mem_nil,fun x hx hle => ?_⟩
        have hlt := within_of_dist hm hl hhead hdist hin hx
        omega
      cases hshown : shown s erased l with
      | nil => exact ⟨[],rfl,hnone⟩
      | cons snod snods =>
        have hmem : snod∈shown s erased l := by
          rw [hshown]
          exact List.mem_cons_self
        have hold := h.outside l hl hin snod (shown_subset erased hmem)
        dsimp only
        rw [Option.bind_some,if_pos hold]
        exact ⟨[],rfl,hnone⟩

/-- A mount reads the log from the commit start node up to the head. -/
theorem replay_reads (h : Covers c s s.mst.logLnum s.mst.cmtNo sqnum nodes)
    (hhead : IsLog c s.lheadLnum) (hlogLebs : 0<c.logLebs) :
    ∃ lebs,replay c s erased=some lebs∧ReadsSegment c s s.mst.logLnum 0 lebs := by
  have ⟨lebs,hreplay,hreads⟩ := replayLog_reads erased h hhead c.logLebs 0 s.mst.logLnum rfl
    h.start.1 fun _ => dist_self
  refine ⟨lebs,?_,hreads⟩
  have ⟨fuel,hfuel⟩ : ∃ fuel,c.logLebs=fuel+1 := ⟨c.logLebs-1,by omega⟩
  have hshown := shown_within erased h h.start
  have hfirst := h.first
  unfold replay
  rw [hfuel] at hreplay ⊢
  unfold replayLog at hreplay ⊢
  cases hnodes : (s.flash s.mst.logLnum).nodes with
  | nil =>
    rw [hnodes] at hfirst
    cases hfirst
  | cons snod snods =>
    rw [hnodes] at hfirst hshown
    have hsnod : snod=⟨sqnum,.cs s.mst.cmtNo⟩ := Option.some.inj hfirst
    rw [hshown] at hreplay ⊢
    dsimp only at hreplay ⊢
    rw [hsnod] at hreplay ⊢
    rw [if_pos rfl]
    exact hreplay

end

end ArdroneKernel.UbifsLog
