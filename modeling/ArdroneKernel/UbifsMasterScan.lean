import ArdroneKernel.UbifsMaster

/-!
# What is read of a master LEB

A LEB that has been written from its start holds nodes, after the last one possibly
something torn, and nothing after that. Here is what `ubifs_scan` and `get_master_node`
find there.
-/

namespace ArdroneKernel.UbifsMaster

variable {g : Geometry} {slots slots' : Slots} {k n j : ℕ} {m : Mst} {padded : Bool} {t : Slot}
  {fuel : ℕ}

/-! ## Slots -/

/-- The number of slots. -/
def Geometry.cnt (g : Geometry) : ℕ := g.lebSize/g.alsz

theorem Geometry.Accepted.alsz_cases (h : g.Accepted) :
    g.alsz=MST_NODE_SZ∨MST_NODE_SZ<g.alsz∧g.alsz∣g.lebSize := by
  have ⟨k,hk⟩ := h.unit
  unfold Geometry.alsz MST_NODE_SZ
  by_cases hle : k≤9
  · left
    have ⟨d,hd⟩ : g.minIoSize∣512 := by
      rw [hk]
      exact (Nat.pow_dvd_pow 2 hle : 2^k∣2^9)
    have hpos : 0<g.minIoSize := Nat.lt_of_lt_of_le (by decide) h.eight
    have hq : (512+(g.minIoSize-1))/g.minIoSize=d := by
      rw [hd,Nat.mul_add_div hpos,Nat.div_eq_of_lt (Nat.sub_lt hpos Nat.one_pos),Nat.add_zero]
    rw [hq,Nat.mul_comm,←hd]
  · right
    have hbig : 512<g.minIoSize := by
      rw [hk]
      exact (Nat.pow_lt_pow_right (by decide) (by omega) : 2^9<2^k)
    have hq : (512+(g.minIoSize-1))/g.minIoSize=1 := by
      refine Nat.div_eq_of_lt_le ?_ ?_
      · omega
      · omega
    rw [hq,Nat.one_mul]
    exact ⟨hbig,h.dvd⟩

theorem Geometry.Accepted.le_alsz (h : g.Accepted) : MST_NODE_SZ≤g.alsz := by
  rcases h.alsz_cases with heq|⟨hlt,_⟩
  · exact heq.ge
  · exact hlt.le

theorem Geometry.Accepted.alsz_pos (h : g.Accepted) : 0<g.alsz :=
  Nat.lt_of_lt_of_le (by decide) h.le_alsz

/-- There is a slot where a node fits in. -/
theorem Geometry.Accepted.fits_iff (h : g.Accepted) : k*g.alsz+MST_NODE_SZ≤g.lebSize ↔ k<g.cnt := by
  unfold Geometry.cnt
  rw [Nat.lt_iff_add_one_le,Nat.le_div_iff_mul_le h.alsz_pos,Nat.add_mul,Nat.one_mul]
  rcases h.alsz_cases with heq|⟨hlt,d,hd⟩
  · rw [heq]
  · refine ⟨fun hle => ?_,fun hle => by omega⟩
    have hkd : k<d := by
      by_contra hge
      have := Nat.mul_le_mul_right g.alsz (not_lt.mp hge)
      rw [Nat.mul_comm d] at this
      have : 0<MST_NODE_SZ := by decide
      omega
    have := Nat.mul_le_mul_left g.alsz hkd
    rw [Nat.mul_succ,Nat.mul_comm g.alsz k] at this
    omega

theorem Geometry.Accepted.cnt_pos (h : g.Accepted) : 0<g.cnt := by
  refine h.fits_iff.mp ?_
  rw [Nat.zero_mul,Nat.zero_add]
  exact Nat.le_trans (by decide) h.leb

theorem slotAt_mul (h : g.Accepted) : slotAt g slots (k*g.alsz)=slots k := by
  unfold slotAt
  rw [Nat.mul_div_cancel _ h.alsz_pos]

theorem succ_slot : k*g.alsz+g.alsz=(k+1)*g.alsz := (Nat.succ_mul k g.alsz).symm

theorem isEmpty_of (h : g.Accepted) (hempty : ∀ i,n≤ i → slots i=.empty) :
    isEmpty g slots (n*g.alsz) :=
  fun _ _ hle _ => hempty _ (Nat.le_of_mul_le_mul_right hle h.alsz_pos)

/-- A node, and its padding as it should be. -/
def Slot.clean : Slot → Bool
  | .node _ padded => padded
  | _ => false

/-- The node. -/
def Slot.mst : Slot → Mst
  | .node m _ => m
  | _ => ⟨false,false,0⟩

/-- A slot without a node. -/
def Slot.bare : Slot → Bool
  | .node _ _ => false
  | _ => true

theorem Slot.magic_of_clean (h : t.clean=true) : t.magic=true := by
  cases t with
  | node m padded => rfl
  | empty => cases h
  | torn magic => cases h

/-! ## What a LEB may hold -/

/-- Nodes up to a slot, of which the last one is `m` and may have damaged padding, then
`t`, which is not a node, and nothing after it. -/
structure Last (g : Geometry) (slots : Slots) (k : ℕ) (m : Mst) (padded : Bool) (t : Slot) :
    Prop where
  before : ∀ i,i<k → (slots i).clean=true
  last : slots k=.node m padded
  next : slots (k+1)=t
  bare : t.bare=true
  after : ∀ i,k+2≤ i → slots i=.empty
  fits : k<g.cnt
  /-- There is something torn only where a node fits in. -/
  room : k+1=g.cnt → t=.empty

/-- No node, but possibly something torn at the start. -/
structure Blank (slots : Slots) (t : Slot) : Prop where
  first : slots 0=t
  bare : t.bare=true
  after : ∀ i,1≤ i → slots i=.empty

/-- The nodes of the first slots. -/
def nodesOf (g : Geometry) (slots : Slots) (n : ℕ) : List (ℕ×Mst) :=
  (List.range n).map fun i => (i*g.alsz,(slots i).mst)

theorem nodesOf_succ : nodesOf g slots (n+1)=nodesOf g slots n++[(n*g.alsz,(slots n).mst)] := by
  unfold nodesOf
  rw [List.range_succ,List.map_append]
  rfl

theorem length_nodesOf : (nodesOf g slots n).length=n := by
  unfold nodesOf
  rw [List.length_map,List.length_range]

/-! ## Scan -/

/-- One clean node is one step of the scan. -/
theorem scanNodes_clean (h : g.Accepted) (hk : k<g.cnt) (hc : (slots k).clean=true) :
    scanNodes g slots (fuel+1) (k*g.alsz)=
      (scanNodes g slots fuel ((k+1)*g.alsz)).map fun found =>
        ((k*g.alsz,(slots k).mst)::found.1,found.2) := by
  have hfit := h.fits_iff.mpr hk
  have hroom : ¬g.lebSize<k*g.alsz+8 := by
    have : 8≤MST_NODE_SZ := by decide
    omega
  rw [scanNodes,if_neg hroom,slotAt_mul h]
  cases hs : slots k with
  | node m padded =>
    rw [hs] at hc
    dsimp only
    rw [if_pos (show padded=true from hc),succ_slot]
    rfl
  | empty => rw [hs] at hc; cases hc
  | torn magic => rw [hs] at hc; cases hc

/-- The scan over some clean nodes. -/
theorem scanNodes_steps (h : g.Accepted) (hn : n≤g.cnt) (hc : ∀ i,i<n → (slots i).clean=true) :
    scanNodes g slots (n+fuel) 0=
      (scanNodes g slots fuel (n*g.alsz)).map fun found =>
        (nodesOf g slots n++found.1,found.2) := by
  induction n generalizing fuel with
  | zero =>
    rw [Nat.zero_add,Nat.zero_mul]
    cases scanNodes g slots fuel 0 with
    | none => rfl
    | some found => rfl
  | succ n ih =>
    rw [Nat.add_assoc,Nat.add_comm 1,ih (Nat.le_of_succ_le hn) fun i hi => hc i (Nat.lt_succ_of_lt hi),
      scanNodes_clean h hn (hc n (Nat.lt_succ_self n)),Option.map_map,nodesOf_succ]
    congr 1
    funext found
    rw [List.append_assoc]
    rfl

/-- The scan ends where there is nothing more. -/
theorem scanNodes_empty (h : g.Accepted) (hs : slots n=.empty) :
    scanNodes g slots (fuel+1) (n*g.alsz)=some ([],n*g.alsz) := by
  rw [scanNodes,slotAt_mul h,hs]
  split <;> rfl

/-- The scan does not go past a node with damaged padding, or what is torn. -/
theorem scanNodes_stuck (h : g.Accepted) (hn : n<g.cnt) (hc : (slots n).clean=false)
    (hs : slots n≠.empty) : scanNodes g slots (fuel+1) (n*g.alsz)=none := by
  have hfit := h.fits_iff.mpr hn
  have hroom : ¬g.lebSize<n*g.alsz+8 := by
    have : 8≤MST_NODE_SZ := by decide
    omega
  rw [scanNodes,if_neg hroom,slotAt_mul h]
  cases hk : slots n with
  | empty => exact absurd hk hs
  | torn magic => rfl
  | node m padded =>
    rw [hk] at hc
    exact if_neg (Bool.eq_false_iff.mp hc)

/-- Clean nodes and nothing after them. -/
theorem ubifsScan_clean (h : g.Accepted) (hn : n≤g.cnt) (hc : ∀ i,i<n → (slots i).clean=true)
    (hempty : ∀ i,n≤ i → slots i=.empty) : ubifsScan g slots=some (nodesOf g slots n) := by
  have hfuel : g.lebSize/g.alsz+1=n+(g.cnt-n+1) := by
    unfold Geometry.cnt at hn ⊢
    omega
  unfold ubifsScan
  rw [hfuel,scanNodes_steps h hn hc,scanNodes_empty h (hempty n le_rfl)]
  dsimp only [Option.map_some]
  rw [if_pos (isEmpty_of h hempty),List.append_nil]

/-- Clean nodes, and then something else. -/
theorem ubifsScan_stuck (h : g.Accepted) (hn : n<g.cnt) (hc : ∀ i,i<n → (slots i).clean=true)
    (hnot : (slots n).clean=false) (hs : slots n≠.empty) : ubifsScan g slots=none := by
  have hfuel : g.lebSize/g.alsz+1=n+(g.cnt-n+1) := by
    unfold Geometry.cnt at hn ⊢
    omega
  unfold ubifsScan
  rw [hfuel,scanNodes_steps h hn.le hc,scanNodes_stuck h hn hnot hs]
  rfl

theorem Last.upTo (hl : Last g slots k m true t) : ∀ i,i<k+1 → (slots i).clean=true := by
  intro i hi
  rcases Nat.lt_succ_iff_lt_or_eq.mp hi with hlt|heq
  · exact hl.before i hlt
  · rw [heq,hl.last]
    rfl

theorem Slot.clean_of_bare (h : t.bare=true) : t.clean=false := by
  cases t with
  | node m padded => cases h
  | empty => rfl
  | torn magic => rfl

/-- A LEB that is not damaged. -/
theorem Last.scan (h : g.Accepted) (hl : Last g slots k m true .empty) :
    ubifsScan g slots=some (nodesOf g slots k++[(k*g.alsz,m)]) := by
  have hempty : ∀ i,k+1≤ i → slots i=.empty := by
    intro i hi
    rcases Nat.eq_or_lt_of_le hi with heq|hlt
    · rw [←heq,hl.next]
    · exact hl.after i hlt
  rw [ubifsScan_clean h hl.fits hl.upTo hempty,nodesOf_succ,hl.last]
  rfl

/-- The scan finds all damage. -/
theorem Last.scan_damaged (h : g.Accepted) (hl : Last g slots k m padded t)
    (hd : ¬(padded=true∧t=.empty)) : ubifsScan g slots=none := by
  cases padded with
  | false =>
    refine ubifsScan_stuck h hl.fits hl.before ?_ ?_
    · rw [hl.last]
      rfl
    · rw [hl.last]
      exact Slot.noConfusion
  | true =>
    have hne : t≠.empty := fun ht => hd ⟨rfl,ht⟩
    have hroom : k+1<g.cnt := lt_of_le_of_ne hl.fits fun heq => hne (hl.room heq)
    refine ubifsScan_stuck h hroom hl.upTo ?_ ?_
    · rw [hl.next]
      exact Slot.clean_of_bare hl.bare
    · rw [hl.next]
      exact hne

theorem Blank.scan (h : g.Accepted) (hb : Blank slots .empty) : ubifsScan g slots=some [] := by
  refine ubifsScan_clean (n := 0) h (Nat.zero_le _) (fun i hi => absurd hi (Nat.not_lt_zero i)) ?_
  intro i _
  rcases Nat.eq_zero_or_pos i with heq|hpos
  · rw [heq,hb.first]
  · exact hb.after i hpos

theorem Blank.scan_damaged (h : g.Accepted) (hb : Blank slots t) (ht : t≠.empty) :
    ubifsScan g slots=none := by
  refine ubifsScan_stuck (n := 0) h h.cnt_pos (fun i hi => absurd hi (Nat.not_lt_zero i)) ?_ ?_
  · rw [hb.first]
    exact Slot.clean_of_bare hb.bare
  · rw [hb.first]
    exact ht

end ArdroneKernel.UbifsMaster
