import ArdroneKernel.UbifsMasterRecovery

/-!
# Writing the master node

What `ubifs_write_master` and recovery leave in the two LEBs, when they are done and
when the power is cut at any point of them.
-/

namespace ArdroneKernel.UbifsMaster

variable {g : Geometry} {slots : Slots} {k : ℕ} {m m' : Mst} {padded : Bool} {ok : ℕ → Prop}

/-! ## One write -/

theorem put_slot (h : g.Accepted) (leb : Leb) (slot : Slot) :
    leb.put g (k*g.alsz) slot=
      .mapped (Function.update leb.slots k (overwrite (leb.slots k) slot)) := by
  unfold Leb.put
  rw [Nat.mul_div_cancel _ h.alsz_pos,slotAt_mul h]

theorem put_free (h : g.Accepted) {leb : Leb} (slot : Slot) (hk : leb.slots k=.empty) :
    (leb.put g (k*g.alsz) slot).slots=Function.update leb.slots k slot := by
  rw [put_slot h leb slot,hk]
  rfl

theorem put_start (h : g.Accepted) {leb : Leb} (slot : Slot) (hk : leb.slots=blank) :
    (leb.put g 0 slot).slots=Function.update blank 0 slot := by
  have hfree := put_free h slot (show leb.slots 0=.empty by rw [hk]; rfl)
  rw [Nat.zero_mul,hk] at hfree
  exact hfree

/-- A node after the last one. -/
theorem Last.putNode (h : g.Accepted) (hl : Last g slots k m true .empty) (hk : k+1<g.cnt) :
    Last g ((Leb.mapped slots).put g ((k+1)*g.alsz) (.node m' padded)).slots (k+1) m' padded
      .empty := by
  rw [put_free h _ (show (Leb.mapped slots).slots (k+1)=.empty from hl.next)]
  have hother : ∀ i,i≠k+1 →
      Function.update (Leb.mapped slots).slots (k+1) (.node m' padded) i=slots i :=
    fun i hi => Function.update_of_ne hi _ _
  refine ⟨fun i hi => ?_,Function.update_self _ _ _,?_,rfl,fun i hi => ?_,hk,fun _ => rfl⟩
  · rw [hother i hi.ne]
    exact hl.upTo i hi
  · rw [hother _ (Nat.succ_ne_self _)]
    exact hl.after _ le_rfl
  · rw [hother i (by omega)]
    exact hl.after i (by omega)

/-- Something torn after the last node. -/
theorem Last.putTorn (h : g.Accepted) (hl : Last g slots k m true .empty) (hk : k+1<g.cnt)
    {magic : Bool} :
    Last g ((Leb.mapped slots).put g ((k+1)*g.alsz) (.torn magic)).slots k m true (.torn magic) := by
  rw [put_free h _ (show (Leb.mapped slots).slots (k+1)=.empty from hl.next)]
  have hother : ∀ i,i≠k+1 →
      Function.update (Leb.mapped slots).slots (k+1) (.torn magic) i=slots i :=
    fun i hi => Function.update_of_ne hi _ _
  refine ⟨fun i hi => ?_,?_,Function.update_self _ _ _,rfl,fun i hi => ?_,hl.fits,
    fun hfull => absurd hfull hk.ne⟩
  · rw [hother i (by omega)]
    exact hl.before i hi
  · rw [hother k (Nat.succ_ne_self k).symm]
    exact hl.last
  · rw [hother i (by omega)]
    exact hl.after i hi

/-- A node at the start of a LEB without contents. -/
theorem last_start (h : g.Accepted) :
    Last g (Function.update blank 0 (.node m padded)) 0 m padded .empty := by
  have hother : ∀ i,i≠0 → Function.update blank 0 (.node m padded) i=.empty :=
    fun i hi => Function.update_of_ne hi _ _
  exact ⟨fun i hi => absurd hi (Nat.not_lt_zero i),Function.update_self _ _ _,
    hother 1 Nat.one_ne_zero,rfl,fun i hi => hother i (by omega),h.cnt_pos,fun _ => rfl⟩

theorem blank_start {magic : Bool} : Blank (Function.update blank 0 (.torn magic)) (.torn magic) :=
  ⟨Function.update_self _ _ _,rfl,fun _ hi => Function.update_of_ne (Nat.one_le_iff_ne_zero.mp hi) _ _⟩

theorem blank_blank : Blank blank .empty := ⟨rfl,rfl,fun _ _ => rfl⟩

/-! ## `ubifs_write_master` -/

section Write

variable {flash : Lnum → Leb} {lebs : Lnum → Slots} {cut : Cut}

/-- Where the next node goes. -/
def nextSlot (g : Geometry) (k : ℕ) : ℕ := if k+1=g.cnt then 0 else k+1

theorem wraps_iff (h : g.Accepted) (hk : k<g.cnt) :
    k*g.alsz+g.alsz+MST_NODE_SZ>g.lebSize ↔ k+1=g.cnt := by
  rw [succ_slot,gt_iff_lt,←not_le,h.fits_iff]
  omega

theorem nextOffs_eq (h : g.Accepted) (hk : k<g.cnt) : nextOffs g (k*g.alsz)=nextSlot g k*g.alsz := by
  unfold nextOffs nextSlot
  by_cases hfull : k+1=g.cnt
  · rw [if_pos ((wraps_iff h hk).mpr hfull),if_pos hfull,Nat.zero_mul]
  · rw [if_neg fun hw => hfull ((wraps_iff h hk).mp hw),if_neg hfull,succ_slot]

/-- The steps when there is room. -/
theorem writeMaster_next (h : g.Accepted) (hk : k+1<g.cnt) :
    writeMaster g (k*g.alsz) m=[.write false ((k+1)*g.alsz) m,.write true ((k+1)*g.alsz) m] := by
  unfold writeMaster
  have hnot : ¬k*g.alsz+g.alsz+MST_NODE_SZ>g.lebSize := fun hw =>
    hk.ne ((wraps_iff h (Nat.lt_of_succ_lt hk)).mp hw)
  rw [nextOffs_eq h (Nat.lt_of_succ_lt hk)]
  unfold nextSlot
  dsimp only
  rw [if_neg hk.ne,if_neg hnot,if_neg (succ_slot_ne h)]
  rfl

/-- The steps when the LEBs are full. -/
theorem writeMaster_wrap (h : g.Accepted) (hk : k+1=g.cnt) :
    writeMaster g (k*g.alsz) m=
      [.unmap false,.write false 0 m,.unmap true,.write true 0 m] := by
  unfold writeMaster
  have hk' : k<g.cnt := by omega
  rw [nextOffs_eq h hk']
  unfold nextSlot
  dsimp only
  rw [if_pos hk,if_pos ((wraps_iff h hk').mpr hk),if_pos (Nat.zero_mul _),Nat.zero_mul]
  rfl

/-- What is in flash after `ubifs_write_master`. -/
theorem write_agree (h : g.Accepted) (hf : ∀ lnum,flash lnum=.mapped (lebs lnum))
    (ha : Agree g lebs k m) (m' : Mst) : ∃ lebs',
      (∀ lnum,(writeMaster g (k*g.alsz) m').foldl (apply g) flash lnum=.mapped (lebs' lnum))∧
      Agree g lebs' (nextSlot g k) m' := by
  have hk := (ha false).fits
  by_cases hfull : k+1=g.cnt
  · refine ⟨fun lnum => Function.update blank 0 (.node m' true),fun lnum => ?_,fun lnum => ?_⟩
    · rw [writeMaster_wrap h hfull]
      have hput : ∀ leb : Leb,leb.slots=blank →
          leb.put g 0 (.node m' true)=.mapped (Function.update blank 0 (.node m' true)) := by
        intro leb hleb
        have hstart := put_start h (.node m' true) hleb
        exact congrArg Leb.mapped hstart
      cases lnum with
      | false => exact hput (.unmapped _) rfl
      | true => exact hput (.unmapped _) rfl
    · unfold nextSlot
      rw [if_pos hfull]
      exact last_start h
  · have hlt : k+1<g.cnt := lt_of_le_of_ne hk hfull
    refine ⟨fun lnum => ((Leb.mapped (lebs lnum)).put g ((k+1)*g.alsz) (.node m' true)).slots,
      fun lnum => ?_,fun lnum => ?_⟩
    · rw [writeMaster_next h hlt]
      have hput : ∀ leb : Leb,leb=.mapped (lebs lnum) → leb.put g ((k+1)*g.alsz) (.node m' true)=
          .mapped ((Leb.mapped (lebs lnum)).put g ((k+1)*g.alsz) (.node m' true)).slots := by
        intro leb hleb
        rw [hleb]
        rfl
      cases lnum with
      | false => exact hput _ (hf false)
      | true => exact hput _ (hf true)
    · unfold nextSlot
      rw [if_neg hfull]
      exact (ha lnum).putNode h hlt

/-- A cut when all steps are done. -/
theorem cutAfter_done {prims : List Prim} (hdone : prims.length≤cut.done) {lnum : Lnum} :
    cutAfter g flash prims cut lnum=
      (prims.foldl (apply g) flash lnum).settle (cut.keep lnum) := by
  unfold cutAfter
  rw [List.take_of_length_le hdone,List.getElem?_eq_none hdone]

/-- A cut during the steps when there is room. -/
theorem cut_next (h : g.Accepted) (hf : ∀ lnum,flash lnum=.mapped (lebs lnum))
    (ha : Agree g lebs k m) (hk : k+1<g.cnt) (hok : ok m.rest) (hok' : ok m'.rest) :
    Shape g ok (cutAfter g flash (writeMaster g (k*g.alsz) m') cut false).slots
      (cutAfter g flash (writeMaster g (k*g.alsz) m') cut true).slots := by
  obtain rfl : flash=fun lnum => .mapped (lebs lnum) := funext hf
  rw [writeMaster_next h hk]
  have hwritten : ∀ lnum,
      Last g ((Leb.mapped (lebs lnum)).put g ((k+1)*g.alsz) (.node m' true)).slots (k+1) m' true
        .empty := fun lnum => (ha lnum).putNode h hk
  have ⟨done,part,keep⟩ := cut
  match done,part with
  | 0,.nothing => exact .same (ha false) (ha true) hok
  | 0,.torn _ => exact .same ((ha false).putTorn h hk) (ha true) hok
  | 0,.unpadded => exact .ahead ((ha false).putNode h hk) (ha true) hok'
  | 1,.nothing => exact .ahead (hwritten false) (ha true) hok'
  | 1,.torn _ => exact .ahead (hwritten false) ((ha true).putTorn h hk) hok'
  | 1,.unpadded => exact .same (hwritten false) ((ha true).putNode h hk) hok'
  | n+2,_ =>
    rw [cutAfter_done (by exact Nat.le_add_left 2 n),cutAfter_done (by exact Nat.le_add_left 2 n)]
    exact .same (hwritten false) (hwritten true) hok'

/-- A cut during the steps when the LEBs are full. -/
theorem cut_wrap (h : g.Accepted) (hf : ∀ lnum,flash lnum=.mapped (lebs lnum))
    (ha : Agree g lebs k m) (hk : k+1=g.cnt) (hmore : 0<k) (hok : ok m.rest) (hok' : ok m'.rest) :
    Shape g ok (cutAfter g flash (writeMaster g (k*g.alsz) m') cut false).slots
      (cutAfter g flash (writeMaster g (k*g.alsz) m') cut true).slots := by
  obtain rfl : flash=fun lnum => .mapped (lebs lnum) := funext hf
  rw [writeMaster_wrap h hk]
  have hput : ∀ (lnum : Lnum) (padded : Bool),
      Last g ((Leb.unmapped (lebs lnum)).put g 0 (.node m' padded)).slots 0 m' padded .empty := by
    intro lnum padded
    rw [put_start h _ (show (Leb.unmapped (lebs lnum)).slots=blank from rfl)]
    exact last_start h
  have htorn : ∀ (lnum : Lnum) (magic : Bool),
      Blank ((Leb.unmapped (lebs lnum)).put g 0 (.torn magic)).slots (.torn magic) := by
    intro lnum magic
    rw [put_start h _ (show (Leb.unmapped (lebs lnum)).slots=blank from rfl)]
    exact blank_start
  have ⟨done,part,keep⟩ := cut
  match done,part with
  | 0,part => cases part <;> exact .same (ha false) (ha true) hok
  | 1,.nothing =>
    cases hkeep : keep false with
    | false =>
      have hblank : (cutAfter g (fun lnum => .mapped (lebs lnum))
          [.unmap false,.write false 0 m',.unmap true,.write true 0 m'] ⟨1,.nothing,keep⟩
          false).slots=if keep false then lebs false else blank := rfl
      rw [hblank,hkeep]
      exact .unmapped blank_blank (ha true) hk hok
    | true =>
      have hkept : (cutAfter g (fun lnum => .mapped (lebs lnum))
          [.unmap false,.write false 0 m',.unmap true,.write true 0 m'] ⟨1,.nothing,keep⟩
          false).slots=if keep false then lebs false else blank := rfl
      rw [hkept,hkeep]
      exact .same (ha false) (ha true) hok
  | 1,.torn magic => exact .unmapped (htorn false magic) (ha true) hk hok
  | 1,.unpadded => exact .wrapped (hput false false) (ha true) hk hmore hok'
  | 2,part => cases part <;> exact .wrapped (hput false true) (ha true) hk hmore hok'
  | 3,.nothing =>
    have hsecond : (cutAfter g (fun lnum => .mapped (lebs lnum))
        [.unmap false,.write false 0 m',.unmap true,.write true 0 m'] ⟨3,.nothing,keep⟩
        true).slots=if keep true then lebs true else blank := rfl
    rw [hsecond]
    cases keep true with
    | false => exact .single (hput false true) blank_blank hok'
    | true => exact .wrapped (hput false true) (ha true) hk hmore hok'
  | 3,.torn magic => exact .single (hput false true) (htorn true magic) hok'
  | 3,.unpadded => exact .same (hput false true) (hput true false) hok'
  | n+4,_ =>
    rw [cutAfter_done (by exact Nat.le_add_left 4 n),cutAfter_done (by exact Nat.le_add_left 4 n)]
    exact .same (hput false true) (hput true true) hok'

/-! ## Recovery -/

/-- A cut during the steps of recovery. -/
theorem cut_rcvrd (h : g.Accepted) (hf : ∀ lnum,flash lnum=.mapped (lebs lnum))
    (hs : Shape g ok (lebs false) (lebs true)) (hok : ok m.rest) :
    Shape g ok (cutAfter g flash (writeRcvrdMstNode m) cut false).slots
      (cutAfter g flash (writeRcvrdMstNode m) cut true).slots := by
  obtain rfl : flash=fun lnum => .mapped (lebs lnum) := funext hf
  have ⟨done,part,keep⟩ := cut
  match done with
  | 0 => cases part <;> exact hs
  | 1 => cases part <;> exact .again (last_start h) rfl hs.readable.2 hok
  | n+2 =>
    rw [cutAfter_done (by exact Nat.le_add_left 2 n),cutAfter_done (by exact Nat.le_add_left 2 n)]
    exact .same (last_start h) (last_start h) (m := {m with rcvry := true}) hok

/-- What is in flash after a cut. -/
theorem cutAfter_mapped {prims : List Prim} {lnum : Lnum} :
    cutAfter g flash prims cut lnum=.mapped (cutAfter g flash prims cut lnum).slots := by
  have hsettle : ∀ (leb : Leb) (keep : Bool),leb.settle keep=.mapped (leb.settle keep).slots := by
    intro leb keep
    cases leb with
    | mapped slots => rfl
    | unmapped old => rfl
  exact hsettle _ _

end Write

end ArdroneKernel.UbifsMaster
