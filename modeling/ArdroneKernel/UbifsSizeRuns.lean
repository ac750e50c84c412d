import ArdroneKernel.UbifsSizes
import Mathlib.Data.List.GetD
import Mathlib.Data.List.Pairwise
import Mathlib.Data.List.Perm.Basic

/-!
# Recovery of inode sizes

Rewriting a LEB changes the size and the checksum of one inode node. What a turn
of the recovery leaves to do is written down in the rest of the size tree.
-/

namespace ArdroneKernel.UbifsSizes

open LittleEndian Function

variable {c : Info} {s s' : State} {e x : Entry} {tree rest : List Entry} {leb : List UInt8}
  {inum i n k offs size : ℕ} {p : Place}

/-! ## Rewriting a LEB -/

theorem lastUsed_spec {m : ℕ} (h : lastUsed leb n=some m) :
    m≤ n∧∀ j,m<j → j≤ n → leb.getD j 0=0xff := by
  induction n with
  | zero =>
    unfold lastUsed at h
    split_ifs at h
    cases h
    exact ⟨le_rfl,fun j hj hle => absurd hle (Nat.not_le.mpr hj)⟩
  | succ n ih =>
    unfold lastUsed at h
    split_ifs at h with hff
    · have hrest := ih h
      refine ⟨hrest.1.trans (Nat.le_succ n),fun j hj hle => ?_⟩
      rcases Nat.le_succ_iff.mp hle with hle | rfl
      · exact hrest.2 j hj hle
      · exact hff
    · cases h
      exact ⟨le_rfl,fun j hj hle => absurd hle (Nat.not_le.mpr hj)⟩

theorem lastUsed_exists (hk : k≤ n) (hne : leb.getD k 0≠0xff) : ∃ m,lastUsed leb n=some m := by
  induction n with
  | zero =>
    rw [Nat.le_zero.mp hk] at hne
    exact ⟨0,by
      unfold lastUsed
      rw [if_neg hne]⟩
  | succ n ih =>
    unfold lastUsed
    split_ifs with hff
    · refine ih (Nat.le_of_lt_succ (hk.lt_of_ne ?_))
      rintro rfl
      exact hne hff
    · exact ⟨n+1,rfl⟩

/-- Writing all but bytes of 0xFF at the end writes the whole LEB. -/
theorem lebChange_eq {len : ℕ} (hlen : leb.length=c.lebSize) (hle : len≤c.lebSize)
    (hff : ∀ j,len≤j → j<c.lebSize → leb.getD j 0=0xff) : lebChange c leb len=leb := by
  unfold lebChange
  refine List.ext_getElem? fun j => ?_
  by_cases hj : j<len
  · rw [List.getElem?_append_left (by
      rw [List.length_take]
      omega),List.getElem?_take,if_pos hj]
  · have htake : (leb.take len).length=len := by
      rw [List.length_take]
      omega
    rw [List.getElem?_append_right (by omega),htake,List.getElem?_replicate]
    split_ifs with hin
    · have hj' : j<leb.length := by omega
      have hbyte := hff j (by omega) (by omega)
      rw [List.getD_eq_getElem _ _ hj'] at hbyte
      rw [List.getElem?_eq_getElem hj',hbyte]
    · exact (List.getElem?_eq_none (by omega)).symm

theorem length_fixedLeb (hroom : offs+INO_NODE_SZ≤leb.length) :
    (fixedLeb c leb offs size).length=leb.length := by
  unfold INO_NODE_SZ at hroom
  unfold fixedLeb
  have hin : offs+48+(leBytes 8 size).length≤leb.length := by
    rw [length_leBytes]
    omega
  rw [length_patch,length_patch hin]
  rw [length_patch hin,length_leBytes]
  omega

/-- Nothing but the size and the checksum changes. -/
theorem fixedLeb_other (hroom : offs+INO_NODE_SZ≤leb.length) {lnum : ℕ}
    (hk : ¬SizeOrCrc ⟨lnum,offs⟩ k) : (fixedLeb c leb offs size)[k]?=leb[k]? := by
  unfold INO_NODE_SZ at hroom
  unfold SizeOrCrc at hk
  dsimp only at hk
  unfold fixedLeb
  have hin : offs+48+(leBytes 8 size).length≤leb.length := by
    rw [length_leBytes]
    omega
  rw [getElem?_patch_out,getElem?_patch_out hin]
  · rw [length_leBytes]
    omega
  · rw [length_patch hin,length_leBytes]
    omega
  · rw [length_leBytes]
    omega

theorem field_fixedLeb (hroom : offs+INO_NODE_SZ≤leb.length) (hsize : size<2^63) :
    field (fixedLeb c leb offs size) (offs+48) 8=size := by
  unfold INO_NODE_SZ at hroom
  unfold fixedLeb
  have hin : offs+48+(leBytes 8 size).length≤leb.length := by
    rw [length_leBytes]
    omega
  rw [field_patch_out]
  · have hwritten := field_patch_in hin
    rw [length_leBytes] at hwritten
    rw [hwritten,leVal_leBytes_of_lt (by omega)]
  · rw [length_patch hin,length_leBytes]
    omega
  · rw [length_leBytes]
    omega

/-- The high byte of the size is not 0xFF. -/
theorem fixedLeb_top (hroom : offs+INO_NODE_SZ≤leb.length) (hsize : size<2^63) :
    (fixedLeb c leb offs size).getD (offs+55) 0≠0xff := by
  unfold INO_NODE_SZ at hroom
  have hin : offs+48+(leBytes 8 size).length≤leb.length := by
    rw [length_leBytes]
    omega
  have hbyte : (fixedLeb c leb offs size)[offs+48+7]?=(leBytes 8 size)[7]? := by
    unfold fixedLeb
    rw [getElem?_patch_out]
    · exact getElem?_patch_in hin (by
        rw [length_leBytes]
        decide)
    · rw [length_patch hin,length_leBytes]
      omega
    · rw [length_leBytes]
      omega
  rw [List.getD_eq_getElem?_getD,show offs+55=offs+48+7 by omega,hbyte]
  intro hff
  have hnat : (UInt8.ofNat (size/256/256/256/256/256/256/256)).toNat=255 := congrArg UInt8.toNat hff
  rw [UInt8.toNat_ofNat'] at hnat
  omega

/-- The LEB is written back as it was but for the size and the checksum. -/
theorem rewrite_eq (hlen : leb.length=c.lebSize) (hunit : c.minIoSize∣c.lebSize)
    (hpos : 0<c.minIoSize) {last : ℕ} (hlast : lastUsed leb (c.lebSize-1)=some last) :
    lebChange c leb (align (last+1) c.minIoSize)=leb := by
  have hspec := lastUsed_spec hlast
  obtain ⟨m,hm⟩ := hunit
  have hle : last+1≤align (last+1) c.minIoSize := by
    unfold align
    have hmod := Nat.div_add_mod' (last+1+c.minIoSize-1) c.minIoSize
    have hlt := Nat.mod_lt (last+1+c.minIoSize-1) hpos
    omega
  by_cases hzero : c.lebSize=0
  · have hnil : leb=[] := List.eq_nil_of_length_eq_zero (hlen.trans hzero)
    unfold lebChange
    rw [hnil,hzero,Nat.zero_sub,List.take_nil]
    rfl
  · refine lebChange_eq hlen ?_ fun j hj hlt => hspec.2 j (by omega) (by omega)
    unfold align
    rw [hm,Nat.mul_comm]
    refine Nat.mul_le_mul_left _ (Nat.lt_succ_iff.mp ((Nat.div_lt_iff_lt_mul hpos).mpr ?_))
    rw [Nat.succ_mul,Nat.mul_comm m,←hm]
    omega

/-! ## What is left to do -/

/-- Inode nodes are inside their LEBs and apart. -/
structure Laid (c : Info) (s : State) : Prop where
  len : ∀ lnum,(s.flash lnum).length=c.lebSize
  inside : ∀ i p,s.ino i=some p → p.offs+INO_NODE_SZ≤c.lebSize
  apart : ∀ i j p q,s.ino i=some p → s.ino j=some q → i≠j → p.lnum=q.lnum →
    p.offs+INO_NODE_SZ≤q.offs∨q.offs+INO_NODE_SZ≤p.offs

/-- Each inode gets the larger of the size it had and an end of its data, when the entries of a
size tree are done with. -/
structure Ready (c : Info) (ends : ℕ → ℕ) (flash : ℕ → List UInt8) (s : State)
    (tree : List Entry) : Prop where
  laid : Laid c s
  distinct : tree.Pairwise fun e x => e.inum≠x.inum
  existing : ∀ e∈tree,e.existing=true → ∃ p,s.ino e.inum=some p∧e.iSize=sizeAt s.flash p
  entry : ∀ e∈tree,∀ p,s.ino e.inum=some p →
    max (sizeAt s.flash p) e.dSize=max (sizeAt flash p) (ends e.inum)
  small : ∀ e∈tree,e.dSize<2^63
  done : ∀ i p,(∀ e∈tree,e.inum≠ i) → s.ino i=some p →
    sizeAt s.flash p=max (sizeAt flash p) (ends i)
  gone : ∀ i,(∀ e∈tree,e.inum≠ i) → s.ino i=none → ∀ block,s.data i block=false
  bytes : ∀ lnum k,(s.flash lnum)[k]?≠(flash lnum)[k]? →
    ∃ i p,s.ino i=some p∧p.lnum=lnum∧SizeOrCrc p k

variable {ends : ℕ → ℕ} {flash : ℕ → List UInt8}

theorem Ready.perm {tree' : List Entry} (h : Ready c ends flash s tree) (hp : tree.Perm tree') :
    Ready c ends flash s tree' where
  laid := h.laid
  distinct := (hp.pairwise_iff fun hne => hne.symm).mp h.distinct
  existing e he := h.existing e (hp.mem_iff.mpr he)
  entry e he := h.entry e (hp.mem_iff.mpr he)
  small e he := h.small e (hp.mem_iff.mpr he)
  done i p hi := h.done i p fun e he => hi e (hp.mem_iff.mp he)
  gone i hi := h.gone i fun e he => hi e (hp.mem_iff.mp he)
  bytes := h.bytes

/-- An entry may go when its inode is in order. -/
theorem Ready.drop (h : Ready c ends flash s (e::rest))
    (hsize : ∀ p,s.ino e.inum=some p → e.dSize≤ sizeAt s.flash p)
    (hgone : s.ino e.inum=none → ∀ block,s.data e.inum block=false) :
    Ready c ends flash s rest where
  laid := h.laid
  distinct := (List.pairwise_cons.mp h.distinct).2
  existing x hx := h.existing x (List.mem_cons_of_mem e hx)
  entry x hx := h.entry x (List.mem_cons_of_mem e hx)
  small x hx := h.small x (List.mem_cons_of_mem e hx)
  done i p hi hp := by
    by_cases hie : e.inum=i
    · subst hie
      have hentry := h.entry e List.mem_cons_self p hp
      have hle := hsize p hp
      rwa [max_eq_left hle] at hentry
    · refine h.done i p (fun x hx => ?_) hp
      rcases List.mem_cons.mp hx with rfl | hx
      · exact hie
      · exact hi x hx
  gone i hi hnone := by
    by_cases hie : e.inum=i
    · subst hie
      exact hgone hnone
    · refine h.gone i (fun x hx => ?_) hnone
      rcases List.mem_cons.mp hx with rfl | hx
      · exact hie
      · exact hi x hx
  bytes := h.bytes

/-- An entry may change as long as it tells the same. -/
theorem Ready.replace (h : Ready c ends flash s (e::rest)) (hinum : x.inum=e.inum)
    (hd : x.dSize=e.dSize)
    (hexisting : x.existing=true → ∃ p,s.ino e.inum=some p∧x.iSize=sizeAt s.flash p) :
    Ready c ends flash s (x::rest) where
  laid := h.laid
  distinct := by
    have hpair := List.pairwise_cons.mp h.distinct
    refine List.pairwise_cons.mpr ⟨fun y hy => ?_,hpair.2⟩
    rw [hinum]
    exact hpair.1 y hy
  existing y hy := by
    rcases List.mem_cons.mp hy with rfl | hy
    · rw [hinum]
      exact hexisting
    · exact h.existing y (List.mem_cons_of_mem e hy)
  entry y hy := by
    rcases List.mem_cons.mp hy with rfl | hy
    · rw [hinum,hd]
      exact h.entry e List.mem_cons_self
    · exact h.entry y (List.mem_cons_of_mem e hy)
  small y hy := by
    rcases List.mem_cons.mp hy with rfl | hy
    · rw [hd]
      exact h.small e List.mem_cons_self
    · exact h.small y (List.mem_cons_of_mem e hy)
  done i p hi := h.done i p (by
    intro y hy
    rcases List.mem_cons.mp hy with rfl | hy
    · rw [←hinum]
      exact hi x List.mem_cons_self
    · exact hi y (List.mem_cons_of_mem x hy))
  gone i hi := h.gone i (by
    intro y hy
    rcases List.mem_cons.mp hy with rfl | hy
    · rw [←hinum]
      exact hi x List.mem_cons_self
    · exact hi y (List.mem_cons_of_mem x hy))
  bytes := h.bytes

theorem removeIno_data (s : State) (inum i block : ℕ) :
    (ubifsTncRemoveIno s inum).data i block=if i=inum then false else s.data i block := by
  unfold ubifsTncRemoveIno
  dsimp only
  rw [update_apply]
  split_ifs <;> rfl

theorem removeIno_ino (s : State) (inum i : ℕ) :
    (ubifsTncRemoveIno s inum).ino i=if i=inum then none else s.ino i :=
  update_apply _ _ _ _

/-- The data nodes of an inode without an inode node go. -/
theorem Ready.remove (h : Ready c ends flash s tree) (hnone : s.ino inum=none) :
    Ready c ends flash (ubifsTncRemoveIno s inum) tree := by
  have hino : (ubifsTncRemoveIno s inum).ino=s.ino := by
    exact update_eq_self_iff.mpr hnone.symm
  have hlaid : Laid c (ubifsTncRemoveIno s inum) := by
    refine ⟨h.laid.len,?_,?_⟩
    · rw [hino]
      exact h.laid.inside
    · rw [hino]
      exact h.laid.apart
  refine ⟨hlaid,h.distinct,?_,?_,h.small,?_,fun i hi hnone' block => ?_,?_⟩
  · rw [hino]
    exact h.existing
  · rw [hino]
    exact h.entry
  · rw [hino]
    exact h.done
  · rw [hino] at hnone'
    rw [removeIno_data,h.gone i hi hnone' block,ite_self]
  · rw [hino]
    exact h.bytes

theorem checkExists_ready (h : Ready c ends flash s (e::rest)) :
    Ready c ends flash (checkExists s e).1 ((checkExists s e).2::rest)∧
      ((checkExists s e).2.existing=false → (checkExists s e).1.ino (checkExists s e).2.inum=none∧
        ∀ block,(checkExists s e).1.data (checkExists s e).2.inum block=false) := by
  unfold checkExists
  split_ifs with hex
  · exact ⟨h,fun hfalse => absurd (hex.symm.trans hfalse) (by decide)⟩
  · rcases hino : s.ino e.inum with _ | p
    · refine ⟨h.remove hino,fun _ => ⟨?_,fun block => ?_⟩⟩
      · exact (removeIno_ino s e.inum e.inum).trans (if_pos rfl)
      · exact (removeIno_data s e.inum e.inum block).trans (if_pos rfl)
    · refine ⟨h.replace rfl rfl fun _ => ⟨p,hino,rfl⟩,fun hfalse => ?_⟩
      cases hfalse

/-- The inode of an entry gets its size on flash. -/
theorem fixSizeInPlace_ready (hunit : c.minIoSize∣c.lebSize) (hpos : 0<c.minIoSize)
    (h : Ready c ends flash s (e::rest)) (hp : s.ino e.inum=some p) :
    ∃ s',fixSizeInPlace c s e=some s'∧Ready c ends flash s' rest := by
  have hnotnone : s.ino e.inum≠none := by
    rw [hp]
    exact Option.some_ne_none p
  unfold fixSizeInPlace
  rw [hp]
  dsimp only
  split_ifs with hle
  · refine ⟨s,rfl,h.drop (fun q hq => ?_) fun hnone => absurd hnone hnotnone⟩
    rw [hp] at hq
    cases hq
    exact hle
  · have hlen := h.laid.len p.lnum
    have hroom : p.offs+INO_NODE_SZ≤(s.flash p.lnum).length := by
      rw [hlen]
      exact h.laid.inside e.inum p hp
    have hsmall := h.small e List.mem_cons_self
    have hfixlen := (show (fixedLeb c (s.flash p.lnum) p.offs e.dSize).length=_ from
      length_fixedLeb hroom).trans hlen
    obtain ⟨last,hlast⟩ := lastUsed_exists (n := c.lebSize-1) (k := p.offs+55) (by
      unfold INO_NODE_SZ at hroom
      omega) (fixedLeb_top (c := c) hroom hsmall)
    have hwritten := rewrite_eq hfixlen hunit hpos hlast
    rw [hlast,Option.map_some,hwritten]
    refine ⟨_,rfl,?_⟩
    -- what the other LEBs and the other inodes of this one read as
    have hother : ∀ lnum k,(p.lnum=lnum → ¬SizeOrCrc p k) →
        (update s.flash p.lnum (fixedLeb c (s.flash p.lnum) p.offs e.dSize) lnum)[k]?=
          (s.flash lnum)[k]? := by
      intro lnum k hk
      by_cases hl : lnum=p.lnum
      · subst hl
        rw [update_self]
        exact fixedLeb_other hroom (hk rfl)
      · rw [update_of_ne hl]
    have hsizes : ∀ i q,s.ino i=some q → i≠e.inum →
        sizeAt (update s.flash p.lnum (fixedLeb c (s.flash p.lnum) p.offs e.dSize)) q=
          sizeAt s.flash q := by
      intro i q hq hne
      refine field_congr fun j hj => hother _ _ fun hl hin => ?_
      have hapart := h.laid.apart i e.inum q p hq hp hne hl.symm
      unfold SizeOrCrc at hin
      unfold INO_NODE_SZ at hapart
      omega
    have hself : sizeAt (update s.flash p.lnum
        (fixedLeb c (s.flash p.lnum) p.offs e.dSize)) p=e.dSize := by
      unfold sizeAt
      rw [update_self]
      exact field_fixedLeb hroom hsmall
    have hpair := List.pairwise_cons.mp h.distinct
    refine ⟨⟨fun lnum => ?_,h.laid.inside,h.laid.apart⟩,hpair.2,fun x hx hex => ?_,
      fun x hx q hq => ?_,fun x hx => h.small x (List.mem_cons_of_mem e hx),fun i q hi hq => ?_,
      fun i hi hnone => ?_,fun lnum k hk => ?_⟩
    · dsimp only
      rw [update_apply]
      split_ifs with hl
      · exact hfixlen
      · exact h.laid.len lnum
    · obtain ⟨q,hq,hqsize⟩ := h.existing x (List.mem_cons_of_mem e hx) hex
      exact ⟨q,hq,hqsize.trans (hsizes _ q hq (hpair.1 x hx).symm).symm⟩
    · exact (congrArg (max · x.dSize) (hsizes _ q hq (hpair.1 x hx).symm)).trans
        (h.entry x (List.mem_cons_of_mem e hx) q hq)
    · by_cases hie : i=e.inum
      · subst hie
        have hqp : p=q := Option.some.inj (hp.symm.trans hq)
        subst hqp
        have hentry := h.entry e List.mem_cons_self p hp
        rw [max_eq_right (Nat.le_of_not_le hle)] at hentry
        exact hself.trans hentry
      · refine (hsizes i q hq hie).trans (h.done i q (fun x hx => ?_) hq)
        rcases List.mem_cons.mp hx with rfl | hx
        · exact fun heq => hie heq.symm
        · exact hi x hx
    · have hie : e.inum≠ i := by
        rintro rfl
        exact hnotnone hnone
      refine h.gone i (fun x hx => ?_) hnone
      rcases List.mem_cons.mp hx with rfl | hx
      · exact hie
      · exact hi x hx
    · by_cases hin : p.lnum=lnum∧SizeOrCrc p k
      · exact ⟨e.inum,p,hp,hin.1,hin.2⟩
      · have hsame := hother lnum k fun hl hk' => hin ⟨hl,hk'⟩
        exact h.bytes lnum k (fun heq => hk (hsame.trans heq))

/-- A turn of the recovery; on a read-only mount an entry may stay. -/
theorem fixEntry_ready (hunit : c.minIoSize∣c.lebSize) (hpos : 0<c.minIoSize) (roMount : Bool)
    (h : Ready c ends flash s (e::rest))
    (hnone : e.existing=false → s.ino e.inum=none∧∀ block,s.data e.inum block=false) :
    ∃ s' kept,fixEntry c roMount s e=some (s',kept)∧
      Ready c ends flash s' (kept.toList++rest)∧(roMount=false → kept=none) := by
  unfold fixEntry
  split_ifs with hfix hpin
  · obtain ⟨p,hp,-⟩ := h.existing e List.mem_cons_self hfix.1
    rw [hp]
    dsimp only
    split_ifs with hlt
    · refine ⟨s,_,rfl,h.replace rfl rfl fun hex => h.existing e List.mem_cons_self hex,
        fun hro => ?_⟩
      exact absurd (hpin.2.symm.trans hro) (by decide)
    · refine ⟨s,none,rfl,h.drop (fun q hq => ?_) fun hno => ?_,fun _ => rfl⟩
      · rw [hp] at hq
        cases hq
        exact Nat.le_of_not_lt hlt
      · rw [hp] at hno
        cases hno
  · obtain ⟨p,hp,-⟩ := h.existing e List.mem_cons_self hfix.1
    obtain ⟨s',hs',hready⟩ := fixSizeInPlace_ready hunit hpos h hp
    rw [hs']
    exact ⟨s',none,rfl,hready,fun _ => rfl⟩
  · refine ⟨s,none,rfl,?_,fun _ => rfl⟩
    rcases hex : e.existing with _ | _
    · have hno := hnone hex
      refine h.drop (fun q hq => ?_) fun _ => hno.2
      rw [hno.1] at hq
      cases hq
    · obtain ⟨p,hp,hsize⟩ := h.existing e List.mem_cons_self hex
      have hle : e.dSize≤ e.iSize := Nat.le_of_not_lt fun hlt => hfix ⟨hex,hlt⟩
      refine h.drop (fun q hq => ?_) fun hno => ?_
      · rw [hp] at hq
        cases hq
        exact hle.trans_eq hsize
      · rw [hp] at hno
        cases hno

theorem recoverLoop_ready (hunit : c.minIoSize∣c.lebSize) (hpos : 0<c.minIoSize) (roMount : Bool)
    (others : List Entry) (h : Ready c ends flash s (tree++others)) :
    ∃ s' kept,recoverLoop c roMount tree s=some (s',kept)∧
      Ready c ends flash s' (kept++others)∧(roMount=false → kept=[]) := by
  induction tree generalizing s others with
  | nil => exact ⟨s,[],rfl,h,fun _ => rfl⟩
  | cons e tree ih =>
    have hcheck := checkExists_ready (show Ready c ends flash s (e::(tree++others)) from h)
    obtain ⟨s1,kept,hfix,hready,hkept⟩ :=
      fixEntry_ready hunit hpos roMount hcheck.1 hcheck.2
    have hperm : (kept.toList++(tree++others)).Perm (tree++(kept.toList++others)) := by
      rw [←List.append_assoc,←List.append_assoc]
      exact List.perm_append_comm.append_right others
    obtain ⟨s',left,hloop,hdone,hleft⟩ := ih (kept.toList++others) (hready.perm hperm)
    refine ⟨s',kept.toList++left,?_,?_,fun hro => ?_⟩
    · rw [recoverLoop,hfix]
      dsimp only
      rw [hloop]
      rfl
    · refine hdone.perm ?_
      rw [←List.append_assoc]
      exact List.perm_append_comm.append_right others
    · rw [hkept hro,hleft hro]
      rfl

/-- A recovery keeps what is left to do in the size tree. -/
theorem ubifsRecoverSize_ready (hunit : c.minIoSize∣c.lebSize) (hpos : 0<c.minIoSize)
    (roMount : Bool) (h : Ready c ends flash s s.tree) :
    ∃ s',ubifsRecoverSize c roMount s=some s'∧Ready c ends flash s' s'.tree∧
      (roMount=false → s'.tree=[]) := by
  obtain ⟨s',kept,hloop,hready,hkept⟩ := recoverLoop_ready hunit hpos roMount []
    (by rwa [List.append_nil])
  rw [List.append_nil] at hready
  refine ⟨{s' with tree := kept},?_,?_,hkept⟩
  · unfold ubifsRecoverSize
    rw [hloop]
    rfl
  · exact ⟨⟨hready.laid.len,hready.laid.inside,hready.laid.apart⟩,hready.distinct,hready.existing,
      hready.entry,hready.small,hready.done,hready.gone,hready.bytes⟩

/-! ## The index -/

theorem fixSizeInPlace_ino (h : fixSizeInPlace c s e=some s') : s'.ino=s.ino := by
  unfold fixSizeInPlace at h
  rcases hp : s.ino e.inum with _ | p
  · rw [hp] at h
    cases h
  · rw [hp] at h
    dsimp only at h
    split_ifs at h
    · cases h
      rfl
    · obtain ⟨last,-,rfl⟩ := Option.map_eq_some_iff.mp h
      rfl

theorem checkExists_ino (s : State) (e : Entry) : (checkExists s e).1.ino=s.ino := by
  unfold checkExists
  split_ifs
  · rfl
  · rcases hp : s.ino e.inum with _ | p
    · exact update_eq_self_iff.mpr hp.symm
    · rfl

theorem fixEntry_ino {roMount : Bool} {kept : Option Entry}
    (h : fixEntry c roMount s e=some (s',kept)) : s'.ino=s.ino := by
  unfold fixEntry at h
  split_ifs at h
  · rcases hp : s.ino e.inum with _ | p
    · rw [hp] at h
      cases h
    · rw [hp] at h
      dsimp only at h
      split_ifs at h <;> cases h <;> rfl
  · obtain ⟨s1,hs1,hpair⟩ := Option.map_eq_some_iff.mp h
    cases hpair
    exact fixSizeInPlace_ino hs1
  · cases h
    rfl

theorem recoverLoop_ino {roMount : Bool} {kept : List Entry}
    (h : recoverLoop c roMount tree s=some (s',kept)) : s'.ino=s.ino := by
  induction tree generalizing s kept with
  | nil =>
    cases h
    rfl
  | cons e tree ih =>
    rw [recoverLoop] at h
    rcases hfix : fixEntry c roMount (checkExists s e).1 (checkExists s e).2 with _ | ⟨s1,left⟩
    · rw [hfix] at h
      cases h
    · rw [hfix] at h
      obtain ⟨⟨s2,kept'⟩,hloop,hpair⟩ := Option.map_eq_some_iff.mp h
      cases hpair
      have hrest := ih hloop
      exact hrest.trans ((fixEntry_ino hfix).trans (checkExists_ino s e))

/-- A recovery of sizes leaves the inode nodes of the index where they are. -/
theorem ubifsRecoverSize_ino {roMount : Bool} (h : ubifsRecoverSize c roMount s=some s') :
    s'.ino=s.ino := by
  obtain ⟨⟨s1,kept⟩,hloop,rfl⟩ := Option.map_eq_some_iff.mp h
  change s1.ino=s.ino
  exact recoverLoop_ino hloop

end ArdroneKernel.UbifsSizes
