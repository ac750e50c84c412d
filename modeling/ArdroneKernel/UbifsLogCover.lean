import ArdroneKernel.UbifsLogRing

/-!
# The log from a commit start node to the head

What each change of the log and the flash keeps of a segment that covers the
buds: the head moves on to a LEB that is unmapped, nodes are written at the
head, nodes are written to buds, and a new commit start node opens a segment of
its own.
-/

namespace ArdroneKernel.UbifsLog

variable {c : Info} {s s' : State} {m l cmtNo sqnum : ℕ} {nodes nodes' : List (ℕ×ℕ)}

/-- The segment and its nodes stay. -/
structure Same (c : Info) (s s' : State) (m : ℕ) : Prop where
  within : ∀ l,Within c s' m l ↔ Within c s m l
  nodes : ∀ l,(s'.flash l).nodes=(s.flash l).nodes
  mapped : ∀ l,Within c s m l → (s'.flash l).mapped=(s.flash l).mapped
  latest : s.maxSqnum≤ s'.maxSqnum

theorem Same.referred (h : Same c s s' m) {x : ℕ×ℕ} (hx : Referred c s m x) :
    Referred c s' m x := by
  have ⟨l,n,hl,hn,hr⟩ := hx
  exact ⟨l,n,(h.within l).mpr hl,by rw [h.nodes]; exact hn,hr⟩

theorem Covers.same (h : Covers c s m cmtNo sqnum nodes) (hs : Same c s s' m)
    (hnodes : ∀ x∈nodes',Referred c s m x)
    (hheads : ∀ j l o,s'.wbuf j=some (l,o) → o<c.lebSize → Referred c s m (l,o)) :
    Covers c s' m cmtNo sqnum nodes' where
  start := (hs.within m).mpr h.start
  first := by rw [hs.nodes]; exact h.first
  inside := by
    intro l hl
    have hl := (hs.within l).mp hl
    rw [hs.nodes,hs.mapped l hl]
    exact h.inside l hl
  outside := by
    intro l hlog hl
    rw [hs.nodes]
    exact h.outside l hlog fun hin => hl ((hs.within l).mpr hin)
  latest := h.latest.trans hs.latest
  nodes := fun x hx => hs.referred (hnodes x hx)
  heads := fun j l o hw ho => hs.referred (hheads j l o hw ho)

/-- The segment and its nodes stay, but for nodes that are written at the head. -/
structure Grown (c : Info) (s s' : State) (m sqnum : ℕ) : Prop where
  head : IsLog c s.lheadLnum
  within : ∀ l,Within c s' m l ↔ Within c s m l∨l=s.lheadLnum
  other : ∀ l,l≠s.lheadLnum → s'.flash l=s.flash l
  mapped : (s'.flash s.lheadLnum).mapped=true
  nodes : ∃ news,news≠[]∧(∀ n∈news,sqnum≤n.sqnum)∧
    (Within c s m s.lheadLnum∧
        (s'.flash s.lheadLnum).nodes=(s.flash s.lheadLnum).nodes++news∨
      ¬Within c s m s.lheadLnum∧(s'.flash s.lheadLnum).nodes=news)
  latest : s.maxSqnum≤ s'.maxSqnum

/-- Nodes of the segment stay, and others come only after them. -/
theorem Grown.kept (h : Grown c s s' m sqnum) (hin : Within c s m l) :
    (s.flash l).nodes <+: (s'.flash l).nodes := by
  by_cases hl : l=s.lheadLnum
  · have ⟨news,_,_,hnodes⟩ := h.nodes
    rcases hnodes with ⟨_,hnodes⟩|⟨hout,_⟩
    · rw [hl,hnodes]
      exact List.prefix_append _ _
    · exact absurd (hl▸hin) hout
  · exact ⟨[],by rw [List.append_nil,h.other l hl]⟩

theorem Grown.referred (h : Grown c s s' m sqnum) {x : ℕ×ℕ} (hx : Referred c s m x) :
    Referred c s' m x := by
  have ⟨l,n,hl,hn,hr⟩ := hx
  exact ⟨l,n,(h.within l).mpr (.inl hl),(h.kept hl).subset hn,hr⟩

theorem Covers.grow (h : Covers c s m cmtNo sqnum nodes) (hs : Grown c s s' m sqnum)
    (hnodes : ∀ x∈nodes',Referred c s' m x)
    (hheads : ∀ j l o,s'.wbuf j=some (l,o) → o<c.lebSize → Referred c s' m (l,o)) :
    Covers c s' m cmtNo sqnum nodes' where
  start := (hs.within m).mpr (.inl h.start)
  first := by
    have ⟨t,ht⟩ := hs.kept h.start
    have hfirst := h.first
    rw [←ht]
    cases hm : (s.flash m).nodes with
    | nil =>
      rw [hm] at hfirst
      cases hfirst
    | cons n ns =>
      rw [hm] at hfirst
      exact hfirst
  inside := by
    intro l hl
    by_cases hhead : l=s.lheadLnum
    · have ⟨news,hne,hnew,hat⟩ := hs.nodes
      rw [hhead]
      refine ⟨hs.mapped,?_,?_⟩
      · rcases hat with ⟨_,hat⟩|⟨_,hat⟩
        · rw [hat]
          exact List.append_ne_nil_of_right_ne_nil _ hne
        · rw [hat]
          exact hne
      · rcases hat with ⟨hin,hat⟩|⟨_,hat⟩
        · rw [hat]
          exact List.forall_mem_append.mpr ⟨(h.inside _ hin).2.2,hnew⟩
        · rw [hat]
          exact hnew
    · rw [hs.other l hhead]
      exact h.inside l (((hs.within l).mp hl).resolve_right hhead)
  outside := by
    intro l hlog hl
    have hhead : l≠s.lheadLnum := fun heq => hl ((hs.within l).mpr (.inr heq))
    rw [hs.other l hhead]
    exact h.outside l hlog fun hin => hl ((hs.within l).mpr (.inl hin))
  latest := h.latest.trans hs.latest
  nodes := hnodes
  heads := hheads

/-! ## Changes of the flash -/

theorem flash_unmap (s : State) (lnum l : ℕ) : ((ubifsLebUnmap s lnum).flash l).nodes=
    (s.flash l).nodes∧(l≠lnum → (ubifsLebUnmap s lnum).flash l=s.flash l) := by
  unfold ubifsLebUnmap
  dsimp only
  by_cases hl : l=lnum
  · rw [hl,Function.update_self]
    exact ⟨rfl,fun hne => absurd rfl hne⟩
  · rw [Function.update_of_ne hl]
    exact ⟨rfl,fun _ => rfl⟩

theorem flash_unmap_self (s : State) (lnum : ℕ) :
    ((ubifsLebUnmap s lnum).flash lnum).mapped=false := by
  unfold ubifsLebUnmap
  dsimp only
  rw [Function.update_self]

/-- What a LEB keeps when a node is written to it. -/
def kept (s : State) (lnum : ℕ) : List Node :=
  if (s.flash lnum).mapped then (s.flash lnum).nodes else []

theorem flash_write (s : State) (lnum : ℕ) (body : NodeBody) :
    (writeLog s lnum body).flash lnum=⟨true,kept s lnum++[⟨s.maxSqnum+1,body⟩]⟩ :=
  Function.update_self _ _ _

theorem flash_write_of_ne (s : State) {lnum : ℕ} (body : NodeBody) (hl : l≠lnum) :
    (writeLog s lnum body).flash l=s.flash l := by
  unfold writeLog
  exact Function.update_of_ne hl _ _

/-- Nodes that are written one after another. -/
def newNodes : ℕ → List NodeBody → List Node
  | _, [] => []
  | sqnum, body::bodies => ⟨sqnum+1,body⟩::newNodes (sqnum+1) bodies

theorem mem_newNodes (sq : ℕ) (bodies : List NodeBody) :
    (∀ n∈newNodes sq bodies,sq<n.sqnum∧n.sqnum≤ sq+bodies.length)∧
    ∀ body∈bodies,∃ n∈newNodes sq bodies,n.body=body := by
  induction bodies generalizing sq with
  | nil => exact ⟨fun n hn => absurd hn List.not_mem_nil,fun b hb => absurd hb List.not_mem_nil⟩
  | cons body bodies ih =>
    have ⟨hnew,hall⟩ := ih (sq+1)
    rw [List.length_cons]
    refine ⟨List.forall_mem_cons.mpr ⟨⟨Nat.lt_succ_self _,by dsimp only; omega⟩,fun n hn => ?_⟩,
      List.forall_mem_cons.mpr ⟨⟨_,List.mem_cons_self,rfl⟩,fun b hb => ?_⟩⟩
    · have := hnew n hn
      omega
    · have ⟨n,hn,hb⟩ := hall b hb
      exact ⟨n,List.mem_cons_of_mem _ hn,hb⟩

/-- Writing nodes one after another changes nothing but their LEB. -/
theorem writeAll (s : State) (lnum : ℕ) (bodies : List NodeBody) :
    bodies.foldl (fun s body => writeLog s lnum body) s=
      { s with
        maxSqnum := s.maxSqnum+bodies.length
        flash := if bodies=[] then s.flash else Function.update s.flash lnum
          ⟨true,kept s lnum++newNodes s.maxSqnum bodies⟩ } := by
  induction bodies generalizing s with
  | nil => rfl
  | cons body bodies ih =>
    rw [List.foldl_cons,ih,if_neg (List.cons_ne_nil _ _),List.length_cons]
    have hsq : (writeLog s lnum body).maxSqnum=s.maxSqnum+1 := rfl
    have hkept : kept (writeLog s lnum body) lnum=kept s lnum++[⟨s.maxSqnum+1,body⟩] := by
      unfold kept
      rw [flash_write,if_pos rfl]
      rfl
    have hflash : (writeLog s lnum body).flash=
        Function.update s.flash lnum ⟨true,kept s lnum++[⟨s.maxSqnum+1,body⟩]⟩ := rfl
    have hlen : s.maxSqnum+1+bodies.length=s.maxSqnum+(bodies.length+1) := by omega
    have hnew : newNodes s.maxSqnum (body::bodies)=
      [⟨s.maxSqnum+1,body⟩]++newNodes (s.maxSqnum+1) bodies := rfl
    rw [hsq,hkept,hflash,hlen,hnew]
    by_cases hb : bodies=[]
    · subst hb
      unfold newNodes
      rfl
    · rw [if_neg hb,Function.update_idem,List.append_assoc]
      rfl

end ArdroneKernel.UbifsLog
