import ArdroneKernel.UbifsMasterScan

/-!
# What recovery finds

`get_master_node` finds the last node of a LEB that was written from its start. The
two LEBs can be in one of six shapes, and each of them leads `ubifs_read_master` to a
node.
-/

namespace ArdroneKernel.UbifsMaster

variable {g : Geometry} {slots slots' : Slots} {k n : ℕ} {m m' : Mst} {padded padded' : Bool}
  {t t' : Slot}

/-! ## One LEB -/

theorem firstNotNode_step (h : g.Accepted) (hk : k<g.cnt) (hm : (slots k).magic=true) {fuel : ℕ} :
    firstNotNode g slots (fuel+1) (k*g.alsz)=firstNotNode g slots fuel ((k+1)*g.alsz) := by
  rw [firstNotNode,slotAt_mul h,if_pos ⟨h.fits_iff.mpr hk,hm⟩,succ_slot]

theorem firstNotNode_steps (h : g.Accepted) (hn : n≤g.cnt) (hm : ∀ i,i<n → (slots i).magic=true)
    {fuel : ℕ} : firstNotNode g slots (n+fuel) 0=firstNotNode g slots fuel (n*g.alsz) := by
  induction n generalizing fuel with
  | zero => rw [Nat.zero_add,Nat.zero_mul]
  | succ n ih =>
    rw [Nat.add_assoc,Nat.add_comm 1,ih (Nat.le_of_succ_le hn) fun i hi => hm i (Nat.lt_succ_of_lt hi),
      firstNotNode_step h hn (hm n (Nat.lt_succ_self n))]

theorem firstNotNode_stop (h : g.Accepted) (hs : n<g.cnt → (slots n).magic=false) {fuel : ℕ} :
    firstNotNode g slots fuel (n*g.alsz)=n*g.alsz := by
  cases fuel with
  | zero => rfl
  | succ fuel =>
    rw [firstNotNode,slotAt_mul h]
    refine if_neg fun ⟨hfit,hm⟩ => ?_
    rw [hs (h.fits_iff.mp hfit)] at hm
    cases hm

/-- The first position that is definitely not a node. -/
theorem firstNotNode_eq (h : g.Accepted) (hn : n≤g.cnt) (hm : ∀ i,i<n → (slots i).magic=true)
    (hs : n<g.cnt → (slots n).magic=false) :
    firstNotNode g slots (g.lebSize/g.alsz+1) 0=n*g.alsz := by
  have hfuel : g.lebSize/g.alsz+1=n+(g.cnt-n+1) := by
    unfold Geometry.cnt at hn ⊢
    omega
  rw [hfuel,firstNotNode_steps h hn hm,firstNotNode_stop h hs]

theorem sub_slot : (k+1)*g.alsz-g.alsz=k*g.alsz := by
  rw [Nat.succ_mul,Nat.add_sub_cancel]

theorem succ_slot_ne (h : g.Accepted) : (k+1)*g.alsz≠0 :=
  Nat.mul_ne_zero (Nat.succ_ne_zero k) h.alsz_pos.ne'

/-- The node is the last one, also when it is not the last thing that looks like one. -/
theorem Last.nodeBefore (h : g.Accepted) (hl : Last g slots k m padded t) :
    nodeBefore g slots (firstNotNode g slots (g.lebSize/g.alsz+1) 0)=
      some (some (k*g.alsz,m),(k+1)*g.alsz) := by
  have hnodes : ∀ i,i<k+1 → (slots i).magic=true := by
    intro i hi
    rcases Nat.lt_succ_iff_lt_or_eq.mp hi with hlt|heq
    · exact Slot.magic_of_clean (hl.before i hlt)
    · rw [heq,hl.last]
      rfl
  cases ht : t.magic with
  | false =>
    rw [firstNotNode_eq h hl.fits hnodes fun _ => by rw [hl.next,ht]]
    unfold UbifsMaster.nodeBefore
    rw [if_neg (succ_slot_ne h),sub_slot,slotAt_mul h,hl.last]
  | true =>
    have hroom : k+1<g.cnt := lt_of_le_of_ne hl.fits fun heq => by
      rw [hl.room heq] at ht
      cases ht
    have hmore : ∀ i,i<k+2 → (slots i).magic=true := by
      intro i hi
      rcases Nat.lt_succ_iff_lt_or_eq.mp hi with hlt|heq
      · exact hnodes i hlt
      · rw [heq,hl.next,ht]
    rw [firstNotNode_eq h hroom hmore fun _ => by rw [hl.after _ le_rfl]; rfl]
    unfold UbifsMaster.nodeBefore
    rw [if_neg (succ_slot_ne h),sub_slot,slotAt_mul h,hl.next,sub_slot,slotAt_mul h,hl.last,
      if_neg (succ_slot_ne h)]
    have hbare := hl.bare
    cases t with
    | node m padded => cases hbare
    | empty => rfl
    | torn magic => rfl

/-- The last node, and whether there is something torn after it. -/
theorem Last.get (h : g.Accepted) (hl : Last g slots k m padded t) :
    getMasterNode g slots=some (some (k*g.alsz,m),decide (t≠.empty)) := by
  unfold getMasterNode
  rw [hl.nodeBefore h]
  dsimp only
  by_cases hend : (k+1)*g.alsz<g.lebSize
  · rw [if_pos hend,succ_slot,if_pos (isEmpty_of h hl.after),slotAt_mul h,hl.next]
  · rw [if_neg hend]
    have hfull : k+1=g.cnt := by
      refine Nat.le_antisymm hl.fits (not_lt.mp fun hlt => hend ?_)
      have := h.fits_iff.mpr hlt
      have : 0<MST_NODE_SZ := by decide
      omega
    rw [hl.room hfull]
    rfl

/-- Without a node there is at most something torn at the start. -/
theorem Blank.get (h : g.Accepted) (hb : Blank slots t) :
    getMasterNode g slots=some (none,decide (t≠.empty)) := by
  have hbefore : nodeBefore g slots (firstNotNode g slots (g.lebSize/g.alsz+1) 0)=
      some (none,0) := by
    cases ht : t.magic with
    | false =>
      rw [firstNotNode_eq (n := 0) h (Nat.zero_le _) (fun i hi => absurd hi (Nat.not_lt_zero i))
        fun _ => by rw [hb.first,ht]]
      unfold nodeBefore
      rw [Nat.zero_mul,if_pos rfl]
    | true =>
      rw [firstNotNode_eq (n := 1) h h.cnt_pos (fun i hi => by rw [Nat.lt_one_iff.mp hi,hb.first,ht])
        fun _ => by rw [hb.after 1 le_rfl]; rfl]
      have hat : slotAt g slots 0=t := by rw [←Nat.zero_mul g.alsz,slotAt_mul h,hb.first]
      unfold nodeBefore
      rw [Nat.one_mul,if_neg h.alsz_pos.ne',Nat.sub_self,hat,if_pos rfl]
      have hbare := hb.bare
      cases t with
      | node m padded => cases hbare
      | empty => rfl
      | torn magic => rfl
  unfold getMasterNode
  rw [hbefore]
  dsimp only
  have hpos : 0<g.lebSize := Nat.lt_of_lt_of_le (by decide) h.leb
  rw [if_pos hpos,Nat.zero_add,←Nat.one_mul g.alsz,if_pos (isEmpty_of h hb.after),
    ←Nat.zero_mul (1*g.alsz)]
  unfold slotAt
  rw [Nat.zero_mul,Nat.zero_div,hb.first]

/-- What a LEB holds at any moment. -/
def Readable (g : Geometry) (slots : Slots) : Prop :=
  (∃ k m padded t,Last g slots k m padded t)∨∃ t,Blank slots t

/-- There is one last node. -/
theorem Last.unique (h : g.Accepted) (hl : Last g slots k m padded t)
    (hl' : Last g slots n m' padded' t') : m=m' := by
  have heq := (hl.get h).symm.trans (hl'.get h)
  have hpair := Option.some.inj (Prod.mk.inj (Option.some.inj heq)).1
  exact (Prod.mk.inj hpair).2

theorem Last.not_blank (h : g.Accepted) (hl : Last g slots k m padded t) : ¬Blank slots t' := by
  intro hb
  have heq := (hl.get h).symm.trans (hb.get h)
  cases (Prod.mk.inj (Option.some.inj heq)).1

/-! ## Both LEBs -/

section Both

variable {flash : Lnum → Slots} {offs : ℕ}

/-- Both LEBs hold the same node at a slot, as the last one, and nothing is damaged. -/
def Agree (g : Geometry) (flash : Lnum → Slots) (k : ℕ) (m : Mst) : Prop :=
  ∀ lnum,Last g (flash lnum) k m true .empty

/-- Then the scan finds it. -/
theorem Agree.scanForMaster (h : g.Accepted) (ha : Agree g flash k m) :
    scanForMaster g flash=some (k*g.alsz,m) := by
  unfold UbifsMaster.scanForMaster
  rw [(ha false).scan h,(ha true).scan h]
  dsimp only
  rw [List.getLast?_concat,List.getLast?_concat,List.length_append,List.length_append,length_nodesOf,
    length_nodesOf,if_neg fun hne => hne rfl]
  dsimp only
  rw [if_neg fun hne => hne.elim (fun h => h rfl) fun h => h rfl]

/-- A scan that does not end is one of a LEB that is not damaged. -/
theorem Readable.scan (h : g.Accepted) (hr : Readable g slots) {nodes : List (ℕ×Mst)}
    (hs : ubifsScan g slots=some nodes) (hlast : nodes.getLast?=some (offs,m)) :
    ∃ k,offs=k*g.alsz∧Last g slots k m true .empty := by
  rcases hr with ⟨k,m',padded,t,hl⟩|⟨t,hb⟩
  · by_cases hclean : padded=true∧t=.empty
    · rw [hclean.1,hclean.2] at hl
      rw [hl.scan h,Option.some.injEq] at hs
      rw [←hs,List.getLast?_concat,Option.some.injEq,Prod.mk.injEq] at hlast
      rw [hlast.2] at hl
      exact ⟨k,hlast.1.symm,hl⟩
    · rw [hl.scan_damaged h hclean] at hs
      cases hs
  · by_cases ht : t=.empty
    · rw [ht] at hb
      rw [hb.scan h,Option.some.injEq] at hs
      rw [←hs] at hlast
      cases hlast
    · rw [hb.scan_damaged h ht] at hs
      cases hs

/-- What the scan finds is in both LEBs. -/
theorem agree_of_scan (h : g.Accepted) (hr : ∀ lnum,Readable g (flash lnum))
    (hs : scanForMaster g flash=some (offs,m)) : ∃ k,offs=k*g.alsz∧Agree g flash k m := by
  unfold UbifsMaster.scanForMaster at hs
  cases hs1 : ubifsScan g (flash false) with
  | none => rw [hs1] at hs; cases hs
  | some nodes =>
    cases hs2 : ubifsScan g (flash true) with
    | none => rw [hs1,hs2] at hs; cases hs
    | some nodes' =>
      rw [hs1,hs2] at hs
      dsimp only at hs
      split at hs
      · cases hs
      cases hl1 : nodes.getLast? with
      | none => rw [hl1] at hs; cases hs
      | some last =>
        cases hl2 : nodes'.getLast? with
        | none => rw [hl1,hl2] at hs; cases hs
        | some last' =>
          rw [hl1,hl2] at hs
          dsimp only at hs
          split at hs
          · cases hs
          · rename_i hsame
            have hoffs : last'.1=last.1 := by
              by_contra hne
              exact hsame (.inl hne)
            have hmst : last.2=last'.2 := by
              by_contra hne
              exact hsame (.inr hne)
            have hpair := Prod.mk.inj (Option.some.inj hs)
            rw [←hpair.1,←hpair.2]
            have ⟨k,hk,hlast⟩ := (hr false).scan h hs1 (show nodes.getLast?=some (last.1,last.2) from hl1)
            have ⟨n,hn,hlast'⟩ := (hr true).scan h hs2 (show nodes'.getLast?=some (last'.1,last'.2) from hl2)
            have hkn : k=n := Nat.eq_of_mul_eq_mul_right h.alsz_pos (by rw [←hk,←hn,hoffs])
            refine ⟨k,hk,fun lnum => ?_⟩
            cases lnum with
            | false => exact hlast
            | true => rw [hmst,hkn]; exact hlast'

/-- The shapes of the two LEBs when the power is off, with what the node that is to
be found may hold. -/
inductive Shape (g : Geometry) (ok : ℕ → Prop) (slots slots' : Slots) : Prop where
  /-- The last nodes are the same. -/
  | same {k : ℕ} {m : Mst} {padded padded' : Bool} {t t' : Slot}
    (first : Last g slots k m padded t) (second : Last g slots' k m padded' t') (holds : ok m.rest)
  /-- The first LEB was written, the second not. -/
  | ahead {k : ℕ} {m m' : Mst} {padded padded' : Bool} {t' : Slot}
    (first : Last g slots (k+1) m padded .empty) (second : Last g slots' k m' padded' t')
    (holds : ok m.rest)
  /-- The first LEB was unmapped and written, and the second is full. -/
  | wrapped {k : ℕ} {m m' : Mst} {padded padded' : Bool} {t' : Slot}
    (first : Last g slots 0 m padded .empty) (second : Last g slots' k m' padded' t')
    (full : k+1=g.cnt) (more : 0<k) (holds : ok m.rest)
  /-- The first LEB was unmapped, and the second is full. -/
  | unmapped {k : ℕ} {m : Mst} {padded : Bool} {t t' : Slot}
    (first : Blank slots t) (second : Last g slots' k m padded t') (full : k+1=g.cnt)
    (holds : ok m.rest)
  /-- The second LEB was unmapped. -/
  | single {m : Mst} {padded : Bool} {t' : Slot}
    (first : Last g slots 0 m padded .empty) (second : Blank slots' t') (holds : ok m.rest)
  /-- The first LEB was written by recovery, the second not. -/
  | again {m : Mst}
    (first : Last g slots 0 m true .empty) (flag : m.rcvry=true) (second : Readable g slots')
    (holds : ok m.rest)

variable {ok : ℕ → Prop}

theorem Last.readable (hl : Last g slots k m padded t) : Readable g slots := .inl ⟨k,m,padded,t,hl⟩

theorem Blank.readable (hb : Blank slots t) : Readable g slots := .inr ⟨t,hb⟩

theorem Shape.readable (hs : Shape g ok slots slots') : Readable g slots∧Readable g slots' := by
  cases hs with
  | same first second => exact ⟨first.readable,second.readable⟩
  | ahead first second => exact ⟨first.readable,second.readable⟩
  | wrapped first second => exact ⟨first.readable,second.readable⟩
  | unmapped first second => exact ⟨first.readable,second.readable⟩
  | single first second => exact ⟨first.readable,second.readable⟩
  | again first _ second => exact ⟨first.readable,second⟩

/-- The node at the end of the first LEB is the one to be found. -/
theorem Shape.holds_first (h : g.Accepted) (hs : Shape g ok slots slots')
    (hl : Last g slots k m padded t) : ok m.rest := by
  cases hs with
  | same first _ holds => rw [hl.unique h first]; exact holds
  | ahead first _ holds => rw [hl.unique h first]; exact holds
  | wrapped first _ _ _ holds => rw [hl.unique h first]; exact holds
  | unmapped first => exact absurd first (hl.not_blank h)
  | single first _ holds => rw [hl.unique h first]; exact holds
  | again first _ _ holds => rw [hl.unique h first]; exact holds

/-- Recovery finds a node, whatever the shape is, if the slots fill a LEB. -/
theorem Shape.recover (h : g.Accepted) (hdvd : g.alsz∣g.lebSize)
    (hs : Shape g ok (flash false) (flash true)) :
    ∃ m,recoverMasterNode g flash=some m∧ok m.rest := by
  have hfull : g.cnt*g.alsz=g.lebSize := Nat.div_mul_cancel hdvd
  unfold recoverMasterNode
  cases hs with
  | @same k m _ _ _ _ first second holds =>
    rw [first.get h,second.get h]
    refine ⟨m,?_,holds⟩
    unfold chooseMaster
    dsimp only
    split
    · rfl
    · rw [if_pos rfl,if_neg fun hne => hne rfl]
  | @ahead k m _ _ _ _ first second holds =>
    rw [first.get h,second.get h]
    refine ⟨m,?_,holds⟩
    have hne : (k+1)*g.alsz≠k*g.alsz := fun heq =>
      Nat.succ_ne_self k (Nat.eq_of_mul_eq_mul_right h.alsz_pos heq)
    unfold chooseMaster
    dsimp only
    rw [if_neg fun hflag => succ_slot_ne h hflag.2.1,if_neg hne,if_pos succ_slot]
    rfl
  | @wrapped k m _ _ _ _ first second full more holds =>
    rw [first.get h,second.get h]
    refine ⟨m,?_,holds⟩
    have hne : 0*g.alsz≠k*g.alsz := fun heq =>
      more.ne (Nat.eq_of_mul_eq_mul_right h.alsz_pos heq)
    have hne' : ¬k*g.alsz+g.alsz=0*g.alsz := by
      rw [succ_slot,Nat.zero_mul]
      exact succ_slot_ne h
    unfold chooseMaster
    dsimp only
    by_cases hflag : m.rcvry=true∧0*g.alsz=0∧¬decide (Slot.empty≠Slot.empty)=true
    · exact if_pos hflag
    · rw [if_neg hflag,if_neg hne,if_neg hne',if_pos ⟨Nat.zero_mul _,by rw [succ_slot,full,hfull]⟩]
      rfl
  | @unmapped k m _ _ _ first second full holds =>
    rw [first.get h,second.get h]
    refine ⟨m,?_,holds⟩
    have hbig : ¬k*g.alsz+g.alsz+g.alsz≤g.lebSize := by
      rw [succ_slot,full,hfull]
      have := h.alsz_pos
      omega
    unfold chooseMaster
    exact if_neg hbig
  | @single m _ _ first second holds =>
    rw [first.get h,second.get h]
    refine ⟨m,?_,holds⟩
    unfold chooseMaster
    dsimp only
    split
    · rfl
    · rw [if_neg fun hor => hor.elim (fun hne => hne (Nat.zero_mul _)) Bool.noConfusion]
  | @again m first flag second holds =>
    have hget : ∃ found,getMasterNode g (flash true)=some found := by
      rcases second with ⟨k,m',padded,t,hl⟩|⟨t,hb⟩
      · exact ⟨_,hl.get h⟩
      · exact ⟨_,hb.get h⟩
    have ⟨found,hfound⟩ := hget
    rw [first.get h,hfound]
    refine ⟨m,?_,holds⟩
    unfold chooseMaster
    exact if_pos ⟨flag,Nat.zero_mul _,Bool.noConfusion⟩

/-- The master node is found, and if it need not be written again it is in both LEBs. -/
theorem Shape.read (h : g.Accepted) (hdvd : g.alsz∣g.lebSize)
    (hs : Shape g ok (flash false) (flash true)) :
    ∃ found,readMaster g flash=some found∧ok found.mst.rest∧
      ∀ offs m,found=.scanned offs m → ∃ k,offs=k*g.alsz∧Agree g flash k m := by
  have hr : ∀ lnum,Readable g (flash lnum) := by
    intro lnum
    cases lnum with
    | false => exact hs.readable.1
    | true => exact hs.readable.2
  unfold readMaster
  cases hscan : scanForMaster g flash with
  | some found =>
    have ⟨k,hk,hagree⟩ := agree_of_scan h hr (show _=some (found.1,found.2) from hscan)
    refine ⟨_,rfl,hs.holds_first h (hagree false),fun offs m heq => ?_⟩
    cases heq
    exact ⟨k,hk,hagree⟩
  | none =>
    have ⟨m,hm,hok⟩ := hs.recover h hdvd
    rw [hm]
    refine ⟨_,rfl,hok,fun _ _ heq => ?_⟩
    cases heq

/-- No node is found when the first LEB was unmapped and written, and the second has
room for a part of a slot, or the LEBs have one slot only. -/
theorem read_none (h : g.Accepted) (hl : Last g (flash false) 0 m true .empty)
    (hl' : Last g (flash true) k m' true .empty) (hfull : k+1=g.cnt) (hflag : m.rcvry=false)
    (hne : m≠m') (hroom : k=0∨g.cnt*g.alsz<g.lebSize) : readMaster g flash=none := by
  have hscan : scanForMaster g flash=none := by
    cases hs : scanForMaster g flash with
    | none => rfl
    | some found =>
      have hr : ∀ lnum,Readable g (flash lnum) := by
        intro lnum
        cases lnum with
        | false => exact hl.readable
        | true => exact hl'.readable
      have ⟨n,_,ha⟩ := agree_of_scan h hr (show _=some (found.1,found.2) from hs)
      exact absurd ((hl.unique h (ha false)).trans ((ha true).unique h hl')) hne
  have hchoose : chooseMaster g (some (0*g.alsz,m),decide (Slot.empty≠.empty))
      (some (k*g.alsz,m'),decide (Slot.empty≠.empty))=none := by
    have hnot : ¬(m.rcvry=true∧0*g.alsz=0∧¬decide (Slot.empty≠Slot.empty)=true) := by
      rw [hflag]
      exact fun hor => Bool.noConfusion hor.1
    unfold chooseMaster
    dsimp only
    rw [if_neg hnot]
    rcases Nat.eq_zero_or_pos k with hzero|hpos
    · rw [hzero,if_pos rfl,if_pos hne]
    · have hlt := hroom.resolve_left hpos.ne'
      have hoffs : ¬0*g.alsz=k*g.alsz := fun heq =>
        hpos.ne (Nat.eq_of_mul_eq_mul_right h.alsz_pos heq)
      have hnext : ¬k*g.alsz+g.alsz=0*g.alsz := by
        rw [succ_slot,Nat.zero_mul]
        exact succ_slot_ne h
      have hend : ¬(0*g.alsz=0∧k*g.alsz+g.alsz≥g.lebSize) := by
        rw [succ_slot,hfull]
        exact fun hor => absurd hor.2 (not_le.mpr hlt)
      rw [if_neg hoffs,if_neg hnext,if_neg hend]
  unfold readMaster recoverMasterNode
  rw [hscan,hl.get h,hl'.get h]
  dsimp only
  rw [hchoose]
  rfl

end Both

end ArdroneKernel.UbifsMaster
