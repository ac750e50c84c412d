import ArdroneKernel.UbifsSizeRuns
import Mathlib.Data.List.Induction

/-!
# Sizes after replay and recovery

The size tree holds what the journal nodes tell of each inode, from which the
recovery makes the sizes right. A data node that ends at 4GiB or beyond is noted
with its end cut to 32 bits.
-/

namespace ArdroneKernel.UbifsSizes

open LittleEndian Function

variable {c : Info} {s s' : State} {e x : Entry} {tree : List Entry} {inum i : ℕ} {p : Place}

/-! ## What replay accumulates -/

theorem insertEntry_perm (e : Entry) (tree : List Entry) :
    (insertEntry e tree).Perm (e::tree) := by
  induction tree with
  | nil => rfl
  | cons x tree ih =>
    unfold insertEntry
    split_ifs
    · rfl
    · exact (ih.cons x).trans (List.Perm.swap e x tree)

/-- The size tree after some nodes. -/
structure Noted (nodes : List Node) (s : State) : Prop where
  distinct : s.tree.Pairwise fun e x => e.inum≠x.inum
  existing : ∀ e∈s.tree,e.existing=true → ∃ p,s.ino e.inum=some p∧e.iSize=sizeAt s.flash p
  low : ∀ e∈s.tree,furthest e.inum nodes≤ e.dSize
  high : ∀ e∈s.tree,e.dSize≤ max (furthest e.inum nodes) (lastTrun e.inum nodes)
  absent : ∀ i,(∀ e∈s.tree,e.inum≠ i) → furthest i nodes=0
  gone : ∀ i,(∀ e∈s.tree,e.inum≠ i) → s.ino i=none → ∀ block,s.data i block=false

theorem mem_removeIno (h : tree.Pairwise fun e x => e.inum≠x.inum) :
    x∈removeIno tree inum ↔ x∈tree∧x.inum≠inum := by
  unfold removeIno
  induction tree with
  | nil => simp
  | cons e tree ih =>
    have hpair := List.pairwise_cons.mp h
    by_cases he : e.inum=inum
    · rw [List.eraseP_cons_of_pos (by simpa using he),List.mem_cons]
      constructor
      · intro hx
        refine ⟨Or.inr hx,fun hxi => hpair.1 x hx (he.trans hxi.symm)⟩
      · rintro ⟨rfl | hx,hne⟩
        · exact absurd he hne
        · exact hx
    · rw [List.eraseP_cons_of_neg (by simpa using he),List.mem_cons,List.mem_cons,ih hpair.2]
      constructor
      · rintro (rfl | hx)
        · exact ⟨Or.inl rfl,he⟩
        · exact ⟨Or.inr hx.1,hx.2⟩
      · rintro ⟨rfl | hx,hne⟩
        · exact Or.inl rfl
        · exact Or.inr ⟨hx,hne⟩

theorem distinct_removeIno (h : tree.Pairwise fun e x => e.inum≠x.inum) :
    (removeIno tree inum).Pairwise fun e x => e.inum≠x.inum :=
  h.sublist List.eraseP_sublist

theorem distinct_modifyIno {f : Entry → Entry} (hf : ∀ e,(f e).inum=e.inum)
    (h : tree.Pairwise fun e x => e.inum≠x.inum) :
    (modifyIno tree inum f).Pairwise fun e x => e.inum≠x.inum := by
  have hkeep : ∀ e : Entry,(if e.inum=inum then f e else e).inum=e.inum := by
    intro e
    split_ifs
    · exact hf e
    · rfl
  refine List.pairwise_map.mpr (h.imp fun {e x} hne => ?_)
  rwa [hkeep,hkeep]

theorem mem_modifyIno {f : Entry → Entry} :
    x∈modifyIno tree inum f ↔ ∃ e∈tree,(if e.inum=inum then f e else e)=x := by
  exact List.mem_map

theorem findIno_none : findIno tree inum=none ↔ ∀ e∈tree,e.inum≠inum := by
  unfold findIno
  simp

theorem findIno_some (h : findIno tree inum=some e) : e∈tree∧e.inum=inum := by
  exact ⟨List.mem_of_find?_eq_some h,by simpa using List.find?_some h⟩

theorem furthest_snoc (inum : ℕ) (nodes : List Node) (n : Node) :
    furthest inum (nodes++[n])=match n with
      | .ino i nlink _ => if i=inum∧nlink=0 then 0 else furthest inum nodes
      | .data i block len =>
        if i=inum then max (furthest inum nodes) (block*BLOCK_SIZE+len) else furthest inum nodes
      | .trun i _ _ => if i=inum then 0 else furthest inum nodes := by
  unfold furthest
  rw [List.foldl_append]
  rfl

theorem lastTrun_snoc (inum : ℕ) (nodes : List Node) (n : Node) :
    lastTrun inum (nodes++[n])=match n with
      | .ino i nlink _ => if i=inum∧nlink=0 then 0 else lastTrun inum nodes
      | .data _ _ _ => lastTrun inum nodes
      | .trun i _ newSize => if i=inum then newSize else lastTrun inum nodes := by
  unfold lastTrun
  rw [List.foldl_append]
  rfl

variable {nodes : List Node}

/-- A deletion. -/
theorem Noted.delete (h : Noted nodes s) (inum : ℕ) (place : Place) :
    Noted (nodes++[.ino inum 0 place]) (applyReplayEntry s (.ino inum 0 place)) := by
  have hmem : ∀ x,x∈removeIno s.tree inum ↔ x∈s.tree∧x.inum≠inum := fun x =>
    mem_removeIno h.distinct
  have hkeep : ∀ x : Entry,x.inum≠inum →
      furthest x.inum (nodes++[.ino inum 0 place])=furthest x.inum nodes∧
        lastTrun x.inum (nodes++[.ino inum 0 place])=lastTrun x.inum nodes := by
    intro x hx
    rw [furthest_snoc,lastTrun_snoc]
    exact ⟨if_neg fun hi => hx hi.1.symm,if_neg fun hi => hx hi.1.symm⟩
  refine ⟨distinct_removeIno h.distinct,fun e he hex => ?_,fun e he => ?_,fun e he => ?_,
    fun i hi => ?_,fun i hi hnone block => ?_⟩
  · have he' := (hmem e).mp he
    obtain ⟨p,hp,hsize⟩ := h.existing e he'.1 hex
    exact ⟨p,((removeIno_ino s inum e.inum).trans (if_neg he'.2)).trans hp,hsize⟩
  · have he' := (hmem e).mp he
    rw [(hkeep e he'.2).1]
    exact h.low e he'.1
  · have he' := (hmem e).mp he
    rw [(hkeep e he'.2).1,(hkeep e he'.2).2]
    exact h.high e he'.1
  · rw [furthest_snoc]
    by_cases hii : inum=i
    · exact if_pos ⟨hii,rfl⟩
    · refine (if_neg fun hi' => hii hi'.1).trans (h.absent i fun e he hei => ?_)
      exact hi e ((hmem e).mpr ⟨he,fun heq => hii (heq.symm.trans hei)⟩) hei
  · refine (removeIno_data s inum i block).trans ?_
    split_ifs with hii
    · rfl
    · refine h.gone i (fun e he hei => ?_) ?_ block
      · exact hi e ((hmem e).mpr ⟨he,fun heq => hii (hei.symm.trans heq)⟩) hei
      · rw [←hnone]
        exact ((removeIno_ino s inum i).trans (if_neg hii)).symm

/-- The entry of an inode changes, or there is a new one. -/
theorem accum_spec (inum : ℕ) (f : Entry → Entry) (new : Entry) (tree' : List Entry)
    (h : tree.Pairwise fun e x => e.inum≠x.inum) (hf : ∀ e,(f e).inum=e.inum) (hnew : new.inum=inum)
    (hacc : tree'=match findIno tree inum with
      | some _ => modifyIno tree inum f
      | none => insertEntry new tree) :
    (tree'.Pairwise fun e x => e.inum≠x.inum)∧
    (∀ x∈tree',x∈tree∧x.inum≠inum∨(∃ e∈tree,e.inum=inum∧x=f e)∨
      (∀ e∈tree,e.inum≠inum)∧x=new)∧
    ∀ i,(∀ x∈tree',x.inum≠ i) → i≠inum∧∀ e∈tree,e.inum≠ i := by
  rcases hfind : findIno tree inum with _ | old
  · rw [hfind] at hacc
    have hnone := findIno_none.mp hfind
    have hmem : ∀ x,x∈tree' ↔ x=new∨x∈tree := fun x => by
      rw [hacc,(insertEntry_perm _ _).mem_iff,List.mem_cons]
    refine ⟨?_,fun x hx => ?_,fun i hi => ⟨fun heq => ?_,fun e he => ?_⟩⟩
    · rw [hacc,(insertEntry_perm _ _).pairwise_iff fun hne => hne.symm]
      refine List.pairwise_cons.mpr ⟨fun y hy => ?_,h⟩
      rw [hnew]
      exact (hnone y hy).symm
    · rcases (hmem x).mp hx with rfl | hx
      · exact Or.inr (Or.inr ⟨hnone,rfl⟩)
      · exact Or.inl ⟨hx,hnone x hx⟩
    · exact hi new ((hmem new).mpr (Or.inl rfl)) (hnew.trans heq.symm)
    · exact hi e ((hmem e).mpr (Or.inr he))
  · rw [hfind] at hacc
    have hold := findIno_some hfind
    have hcover : ∀ e∈tree,∃ x∈tree',x.inum=e.inum := by
      intro e he
      refine ⟨if e.inum=inum then f e else e,?_,?_⟩
      · rw [hacc]
        exact mem_modifyIno.mpr ⟨e,he,rfl⟩
      · split_ifs
        · exact hf e
        · rfl
    refine ⟨?_,fun x hx => ?_,fun i hi => ⟨fun heq => ?_,fun e he hei => ?_⟩⟩
    · rw [hacc]
      exact distinct_modifyIno hf h
    · rw [hacc] at hx
      obtain ⟨e,he,rfl⟩ := mem_modifyIno.mp hx
      split_ifs with hei
      · exact Or.inr (Or.inl ⟨e,he,hei,rfl⟩)
      · exact Or.inl ⟨he,hei⟩
    · obtain ⟨x,hx,hxi⟩ := hcover old hold.1
      exact hi x hx (hxi.trans (hold.2.trans heq.symm))
    · obtain ⟨x,hx,hxi⟩ := hcover e he
      exact hi x hx (hxi.trans hei)

/-- An inode node with links. -/
theorem Noted.ino (h : Noted nodes s) (inum : ℕ) {nlink : ℕ} (hlink : nlink≠0) (place : Place) :
    Noted (nodes++[.ino inum nlink place]) (applyReplayEntry s (.ino inum nlink place)) := by
  have happly : applyReplayEntry s (.ino inum nlink place)=
      {s with ino := update s.ino inum (some place),
              tree := accumIno s.tree inum false (sizeAt s.flash place)} := if_neg hlink
  have hkeep : ∀ i,furthest i (nodes++[.ino inum nlink place])=furthest i nodes∧
      lastTrun i (nodes++[.ino inum nlink place])=lastTrun i nodes := by
    intro i
    rw [furthest_snoc,lastTrun_snoc]
    exact ⟨if_neg fun hi => hlink hi.2,if_neg fun hi => hlink hi.2⟩
  obtain ⟨hdistinct,hmem,hcover⟩ := accum_spec inum
    (fun e => {e with iSize := sizeAt s.flash place,existing := true})
    ⟨inum,sizeAt s.flash place,0,true,none⟩
    (accumIno s.tree inum false (sizeAt s.flash place)) h.distinct (fun _ => rfl) rfl rfl
  rw [happly]
  refine ⟨hdistinct,fun x hx hex => ?_,fun x hx => ?_,fun x hx => ?_,fun i hi => ?_,
    fun i hi hnone block => ?_⟩
  · dsimp only
    rcases hmem x hx with ⟨hx',hne⟩ | ⟨e,-,he,rfl⟩ | ⟨-,rfl⟩
    · rw [update_of_ne hne]
      exact h.existing x hx' hex
    · refine ⟨place,?_,rfl⟩
      rw [he,update_self]
    · exact ⟨place,update_self _ _ _,rfl⟩
  · rw [(hkeep x.inum).1]
    rcases hmem x hx with ⟨hx',-⟩ | ⟨e,he,-,rfl⟩ | ⟨hnone,rfl⟩
    · exact h.low x hx'
    · exact h.low e he
    · exact (h.absent inum hnone).le
  · rw [(hkeep x.inum).1,(hkeep x.inum).2]
    rcases hmem x hx with ⟨hx',-⟩ | ⟨e,he,-,rfl⟩ | ⟨-,rfl⟩
    · exact h.high x hx'
    · exact h.high e he
    · exact Nat.zero_le _
  · rw [(hkeep i).1]
    exact h.absent i (hcover i hi).2
  · refine h.gone i (hcover i hi).2 ?_ block
    rw [←hnone]
    exact (update_of_ne (hcover i hi).1 _ _).symm

/-- A data node that ends before 4GiB. -/
theorem Noted.data (h : Noted nodes s) (inum block len : ℕ) (hend : block*BLOCK_SIZE+len<2^32) :
    Noted (nodes++[.data inum block len]) (applyReplayEntry s (.data inum block len)) := by
  have hsize : dataNewSize block len=block*BLOCK_SIZE+len := by
    unfold dataNewSize
    rw [Nat.add_comm,Nat.mod_eq_of_lt hend]
  have hself : furthest inum (nodes++[.data inum block len])=
      max (furthest inum nodes) (dataNewSize block len) := by
    rw [furthest_snoc,hsize]
    exact if_pos rfl
  have hother : ∀ i,i≠inum → furthest i (nodes++[.data inum block len])=furthest i nodes := by
    intro i hi
    rw [furthest_snoc]
    exact if_neg hi.symm
  have htrun : ∀ i,lastTrun i (nodes++[.data inum block len])=lastTrun i nodes := by
    intro i
    rw [lastTrun_snoc]
  obtain ⟨hdistinct,hmem,hcover⟩ := accum_spec inum
    (fun e => if e.dSize<dataNewSize block len then {e with dSize := dataNewSize block len} else e)
    ⟨inum,0,dataNewSize block len,false,none⟩
    (accumData s.tree inum (dataNewSize block len)) h.distinct (fun e => by
      split_ifs <;> rfl) rfl rfl
  have hmax : ∀ e : Entry,
      (if e.dSize<dataNewSize block len then {e with dSize := dataNewSize block len}
        else e : Entry)={e with dSize := max e.dSize (dataNewSize block len)} := by
    intro e
    split_ifs with hlt
    · rw [max_eq_right hlt.le]
    · rw [max_eq_left (Nat.le_of_not_lt hlt)]
  refine ⟨hdistinct,fun x hx hex => ?_,fun x hx => ?_,fun x hx => ?_,fun i hi => ?_,
    fun i hi hnone block' => ?_⟩
  · rcases hmem x hx with ⟨hx',-⟩ | ⟨e,he,-,rfl⟩ | ⟨-,rfl⟩
    · exact h.existing x hx' hex
    · rw [hmax] at hex ⊢
      exact h.existing e he hex
    · cases hex
  · rcases hmem x hx with ⟨hx',hne⟩ | ⟨e,he,hei,rfl⟩ | ⟨hnone,rfl⟩
    · rw [hother x.inum hne]
      exact h.low x hx'
    · rw [hmax]
      rw [hei,hself,←hei]
      exact max_le_max (h.low e he) le_rfl
    · rw [hself,h.absent inum hnone,Nat.zero_max]
  · rw [htrun]
    rcases hmem x hx with ⟨hx',hne⟩ | ⟨e,he,hei,rfl⟩ | ⟨hnone,rfl⟩
    · rw [hother x.inum hne]
      exact h.high x hx'
    · have hhigh := h.high e he
      rw [hmax]
      dsimp only
      rw [hei] at hhigh ⊢
      omega
    · dsimp only
      omega
  · rw [hother i (hcover i hi).1]
    exact h.absent i (hcover i hi).2
  · refine Eq.trans ?_ (h.gone i (hcover i hi).2 hnone block')
    exact congrFun (update_of_ne (hcover i hi).1 _ _) block'

/-- A truncation. -/
theorem Noted.trun (h : Noted nodes s) (inum oldSize newSize : ℕ) :
    Noted (nodes++[.trun inum oldSize newSize])
      (applyReplayEntry s (.trun inum oldSize newSize)) := by
  have hself : furthest inum (nodes++[.trun inum oldSize newSize])=0∧
      lastTrun inum (nodes++[.trun inum oldSize newSize])=newSize := by
    rw [furthest_snoc,lastTrun_snoc]
    exact ⟨if_pos rfl,if_pos rfl⟩
  have hother : ∀ i,i≠inum →
      furthest i (nodes++[.trun inum oldSize newSize])=furthest i nodes∧
        lastTrun i (nodes++[.trun inum oldSize newSize])=lastTrun i nodes := by
    intro i hi
    rw [furthest_snoc,lastTrun_snoc]
    exact ⟨if_neg hi.symm,if_neg hi.symm⟩
  have hcover : ∀ i,(∀ x∈modifyIno s.tree inum fun e => {e with dSize := newSize},x.inum≠ i) →
      ∀ e∈s.tree,e.inum≠ i := by
    intro i hi e he hei
    refine hi _ (mem_modifyIno.mpr ⟨e,he,rfl⟩) ?_
    split_ifs <;> exact hei
  refine ⟨distinct_modifyIno (fun _ => rfl) h.distinct,fun x hx hex => ?_,fun x hx => ?_,
    fun x hx => ?_,fun i hi => ?_,fun i hi hnone block => ?_⟩
  · obtain ⟨e,he,rfl⟩ := mem_modifyIno.mp hx
    have hsame : ∀ b : Prop,[Decidable b] →
        (if b then {e with dSize := newSize} else e : Entry).existing=e.existing∧
        (if b then {e with dSize := newSize} else e : Entry).inum=e.inum∧
        (if b then {e with dSize := newSize} else e : Entry).iSize=e.iSize := by
      intro b _
      split_ifs <;> exact ⟨rfl,rfl,rfl⟩
    rw [(hsame _).1] at hex
    rw [(hsame _).2.1,(hsame _).2.2]
    exact h.existing e he hex
  · obtain ⟨e,he,rfl⟩ := mem_modifyIno.mp hx
    split_ifs with hei
    · rw [hei,hself.1]
      exact Nat.zero_le _
    · rw [(hother e.inum hei).1]
      exact h.low e he
  · obtain ⟨e,he,rfl⟩ := mem_modifyIno.mp hx
    split_ifs with hei
    · rw [hei,hself.2]
      exact le_max_right _ _
    · rw [(hother e.inum hei).1,(hother e.inum hei).2]
      exact h.high e he
  · by_cases hii : i=inum
    · rw [hii,hself.1]
    · rw [(hother i hii).1]
      exact h.absent i (hcover i hi)
  · have hold := h.gone i (hcover i hi) hnone block
    change (update s.data inum _) i block=false
    by_cases hii : i=inum
    · subst hii
      rw [update_self,hold,Bool.false_and]
    · rw [update_of_ne hii]
      exact hold

/-- An inode node is at a place in the index or in the journal. -/
def NodeAt (s : State) (nodes : List Node) (i : ℕ) (p : Place) : Prop :=
  s.ino i=some p∨∃ nlink,Node.ino i nlink p∈nodes

/-- What replay finds: a flash with inode nodes in different places, an index in which data nodes
have inodes, and nodes of the format. -/
structure Journal (c : Info) (s : State) (nodes : List Node) : Prop where
  unit : c.minIoSize∣c.lebSize
  pos : 0<c.minIoSize
  len : ∀ lnum,(s.flash lnum).length=c.lebSize
  inside : ∀ i p,NodeAt s nodes i p → p.offs+INO_NODE_SZ≤c.lebSize
  apart : ∀ i j p q,NodeAt s nodes i p → NodeAt s nodes j q → i≠j → p.lnum=q.lnum →
    p.offs+INO_NODE_SZ≤q.offs∨q.offs+INO_NODE_SZ≤p.offs
  tree : s.tree=[]
  owned : ∀ i,s.ino i=none → ∀ block,s.data i block=false
  block : ∀ i block len,Node.data i block len∈nodes → block<2^29∧0<len∧len≤BLOCK_SIZE
  trun : ∀ i oldSize newSize,Node.trun i oldSize newSize∈nodes → newSize≤ maxInodeSz

theorem replay_snoc (s : State) (nodes : List Node) (n : Node) :
    replay s (nodes++[n])=applyReplayEntry (replay s nodes) n := by
  unfold replay
  rw [List.foldl_append]
  rfl

theorem applyReplayEntry_flash (s : State) (n : Node) : (applyReplayEntry s n).flash=s.flash := by
  rcases n with ⟨inum,nlink,place⟩ | ⟨inum,block,len⟩ | ⟨inum,oldSize,newSize⟩
  · unfold applyReplayEntry
    dsimp only
    split_ifs <;> rfl
  · rfl
  · rfl

theorem replay_flash (s : State) (nodes : List Node) : (replay s nodes).flash=s.flash := by
  induction nodes using List.reverseRecOn with
  | nil => rfl
  | append_singleton nodes n ih => rw [replay_snoc,applyReplayEntry_flash,ih]

/-- Inode nodes in the index are from before or from the journal. -/
theorem replay_ino (h : (replay s nodes).ino i=some p) : NodeAt s nodes i p := by
  induction nodes using List.reverseRecOn with
  | nil => exact Or.inl h
  | append_singleton nodes n ih =>
    have hold : (replay s nodes).ino i=some p → NodeAt s (nodes++[n]) i p := by
      intro hp
      rcases ih hp with hp | ⟨nlink,hp⟩
      · exact Or.inl hp
      · exact Or.inr ⟨nlink,List.mem_append_left _ hp⟩
    rw [replay_snoc] at h
    rcases n with ⟨inum,nlink,place⟩ | ⟨inum,block,len⟩ | ⟨inum,oldSize,newSize⟩
    · unfold applyReplayEntry at h
      dsimp only at h
      split_ifs at h with hlink
      · rw [removeIno_ino] at h
        split_ifs at h
        exact hold h
      · change update (replay s nodes).ino inum (some place) i=some p at h
        rw [update_apply] at h
        split_ifs at h with hi
        · cases h
          subst hi
          exact Or.inr ⟨nlink,List.mem_append_right _ List.mem_cons_self⟩
        · exact hold h
    · exact hold h
    · exact hold h

theorem replay_noted (htree : s.tree=[]) (howned : ∀ i,s.ino i=none → ∀ block,s.data i block=false)
    (hdata : ∀ i block len,Node.data i block len∈nodes → block*BLOCK_SIZE+len<2^32) :
    Noted nodes (replay s nodes) := by
  induction nodes using List.reverseRecOn with
  | nil =>
    change Noted [] s
    refine ⟨?_,?_,?_,?_,fun i _ => rfl,fun i _ => howned i⟩
    · rw [htree]
      exact List.Pairwise.nil
    · rw [htree]
      exact fun e he => absurd he List.not_mem_nil
    · rw [htree]
      exact fun e he => absurd he List.not_mem_nil
    · rw [htree]
      exact fun e he => absurd he List.not_mem_nil
  | append_singleton nodes n ih =>
    have h := ih fun i block len hn => hdata i block len (List.mem_append_left _ hn)
    rw [replay_snoc]
    rcases n with ⟨inum,nlink,place⟩ | ⟨inum,block,len⟩ | ⟨inum,oldSize,newSize⟩
    · rcases Nat.eq_zero_or_pos nlink with rfl | hlink
      · exact h.delete inum place
      · exact h.ino inum hlink.ne' place
    · exact h.data inum block len
        (hdata inum block len (List.mem_append_right _ List.mem_cons_self))
    · exact h.trun inum oldSize newSize

theorem furthest_lt (inum : ℕ)
    (hdata : ∀ i block len,Node.data i block len∈nodes → block*BLOCK_SIZE+len<2^32) :
    furthest inum nodes<2^32 := by
  induction nodes using List.reverseRecOn with
  | nil => exact Nat.two_pow_pos 32
  | append_singleton nodes n ih =>
    have hold := ih fun i block len hn => hdata i block len (List.mem_append_left _ hn)
    rw [furthest_snoc]
    rcases n with ⟨i,nlink,place⟩ | ⟨i,block,len⟩ | ⟨i,oldSize,newSize⟩
    · dsimp only
      split_ifs <;> omega
    · have hend := hdata i block len (List.mem_append_right _ List.mem_cons_self)
      dsimp only
      split_ifs <;> omega
    · dsimp only
      split_ifs <;> omega

theorem lastTrun_le (inum : ℕ)
    (htrun : ∀ i oldSize newSize,Node.trun i oldSize newSize∈nodes → newSize≤ maxInodeSz) :
    lastTrun inum nodes≤ maxInodeSz := by
  induction nodes using List.reverseRecOn with
  | nil => exact Nat.zero_le _
  | append_singleton nodes n ih =>
    have hold := ih fun i old new hn => htrun i old new (List.mem_append_left _ hn)
    rw [lastTrun_snoc]
    rcases n with ⟨i,nlink,place⟩ | ⟨i,block,len⟩ | ⟨i,oldSize,newSize⟩
    · dsimp only
      split_ifs
      · exact Nat.zero_le _
      · exact hold
    · exact hold
    · have hnew := htrun i oldSize newSize (List.mem_append_right _ List.mem_cons_self)
      dsimp only
      split_ifs
      · exact hnew
      · exact hold

/-- Replay leaves to the recovery what it can do. -/
theorem replay_ready (h : Journal c s nodes)
    (hdata : ∀ i block len,Node.data i block len∈nodes → block*BLOCK_SIZE+len<2^32)
    (htrun : ∀ i p,(replay s nodes).ino i=some p →
      lastTrun i nodes≤ max (sizeAt s.flash p) (furthest i nodes)) :
    Ready c (furthest · nodes) s.flash (replay s nodes) (replay s nodes).tree := by
  have hnoted := replay_noted h.tree h.owned hdata
  have hflash := replay_flash s nodes
  have hlaid : Laid c (replay s nodes) := by
    refine ⟨fun lnum => ?_,fun i p hp => h.inside i p (replay_ino hp),fun i j p q hp hq =>
      h.apart i j p q (replay_ino hp) (replay_ino hq)⟩
    rw [hflash]
    exact h.len lnum
  refine ⟨hlaid,hnoted.distinct,hnoted.existing,fun e he p hp => ?_,fun e he => ?_,
    fun i p hi hp => ?_,hnoted.gone,fun lnum k hk => ?_⟩
  · have hlow := hnoted.low e he
    have hhigh := hnoted.high e he
    have htrun := htrun e.inum p hp
    rw [hflash]
    omega
  · have hhigh := hnoted.high e he
    have hfar := furthest_lt e.inum hdata
    have hlast := lastTrun_le e.inum h.trun
    unfold maxInodeSz BLOCK_SIZE at hlast
    omega
  · rw [hflash,hnoted.absent i hi,Nat.max_zero]
  · rw [hflash] at hk
    exact absurd rfl hk

/-- With no entries left all is as it should be. -/
theorem Ready.right {flash : ℕ → List UInt8} (h : Ready c (furthest · nodes) flash s []) :
    Right nodes flash s where
  size i p := h.done i p fun _ he => absurd he List.not_mem_nil
  gone i := h.gone i fun _ he => absurd he List.not_mem_nil
  bytes := h.bytes

/-- Sizes are right after a recovery, also when the mount was read-only before, if no data node
ends at 4GiB or beyond and no inode is smaller than its last truncation left it. -/
theorem ubifsRecoverSize_right (h : Journal c s nodes)
    (hdata : ∀ i block len,Node.data i block len∈nodes → block*BLOCK_SIZE+len<2^32)
    (htrun : ∀ i p,(replay s nodes).ino i=some p →
      lastTrun i nodes≤ max (sizeAt s.flash p) (furthest i nodes)) :
    (∃ s',ubifsRecoverSize c false (replay s nodes)=some s'∧
      s'.ino=(replay s nodes).ino∧Right nodes s.flash s')∧
    ∃ s₁ s',ubifsRecoverSize c true (replay s nodes)=some s₁∧
      ubifsRecoverSize c false s₁=some s'∧s'.ino=(replay s nodes).ino∧Right nodes s.flash s' := by
  have hready := replay_ready h hdata htrun
  constructor
  · obtain ⟨s',hs',hdone,hleft⟩ := ubifsRecoverSize_ready h.unit h.pos false hready
    rw [hleft rfl] at hdone
    exact ⟨s',hs',ubifsRecoverSize_ino hs',hdone.right⟩
  · obtain ⟨s₁,hs₁,hkept,-⟩ := ubifsRecoverSize_ready h.unit h.pos true hready
    obtain ⟨s',hs',hdone,hleft⟩ := ubifsRecoverSize_ready h.unit h.pos false hkept
    rw [hleft rfl] at hdone
    exact ⟨s₁,s',hs₁,hs',(ubifsRecoverSize_ino hs').trans (ubifsRecoverSize_ino hs₁),hdone.right⟩

/-! ## Beyond 4GiB -/

/-- An inode node of the inode 65 and of size 0. -/
def inoNode : List UInt8 :=
  leBytes 4 0x06101831++leBytes 4 0++leBytes 8 7++leBytes 4 INO_NODE_SZ++leBytes 4 0++
    leBytes 4 65++leBytes 12 0++leBytes 8 3++leBytes 8 0++leBytes 104 0

/-- An eraseblock of 16KiB with that inode node. -/
def bigInfo : Info := ⟨16384,512,fun _ => 0⟩

/-- A file system with that inode. -/
def bigState : State where
  ino i := if i=65 then some ⟨5,0⟩ else none
  data _ _ := false
  flash _ := inoNode++List.replicate 16224 0xff
  tree := []

/-- A data node that ends beyond 4GiB. -/
def bigNodes : List Node := [.data 65 (2^20) 4096]

/-- A data node that ends before 4GiB. -/
def smallNodes : List Node := [.data 65 (2^20-2) 4096]

theorem bigState_ino {i : ℕ} {p : Place} (h : bigState.ino i=some p) : i=65∧p=⟨5,0⟩ := by
  unfold bigState at h
  dsimp only at h
  split_ifs at h with hi
  cases h
  exact ⟨hi,rfl⟩

theorem inoNode_length : inoNode.length=160 := by decide +kernel

theorem bigState_size : sizeAt bigState.flash ⟨5,0⟩=0 := by decide +kernel

theorem bigState_journal {block : ℕ} (hblock : block<2^29) :
    Journal bigInfo bigState [.data 65 block 4096] := by
  have hat : ∀ i p,NodeAt bigState [.data 65 block 4096] i p → i=65∧p=⟨5,0⟩ := by
    intro i p hp
    rcases hp with hp | ⟨nlink,hp⟩
    · exact bigState_ino hp
    · cases List.mem_singleton.mp hp
  refine ⟨⟨32,rfl⟩,by decide,fun lnum => ?_,fun i p hp => ?_,fun i j p q hp hq hne => ?_,rfl,
    fun i _ block => rfl,fun i b len hn => ?_,fun i old new hn => ?_⟩
  · unfold bigState
    rw [List.length_append,List.length_replicate,inoNode_length]
    rfl
  · rw [(hat i p hp).2]
    decide
  · exact absurd ((hat i p hp).1.trans (hat j q hq).1.symm) hne
  · cases List.mem_singleton.mp hn
    exact ⟨hblock,by decide,le_rfl⟩
  · cases List.mem_singleton.mp hn

theorem ubifsRecoverSize_right_example :
    (∃ s',ubifsRecoverSize bigInfo false (replay bigState smallNodes)=some s'∧
      s'.ino=(replay bigState smallNodes).ino∧Right smallNodes bigState.flash s')∧
    ∃ s₁ s',ubifsRecoverSize bigInfo true (replay bigState smallNodes)=some s₁∧
      ubifsRecoverSize bigInfo false s₁=some s'∧s'.ino=(replay bigState smallNodes).ino∧
      Right smallNodes bigState.flash s' :=
  ubifsRecoverSize_right (bigState_journal (by decide))
    (fun i block len hn => by
      cases List.mem_singleton.mp hn
      decide)
    fun i p _ => Nat.zero_le _

theorem bigNodes_ready :
    Ready bigInfo (fun _ => 4096) bigState.flash (replay bigState bigNodes)
      (replay bigState bigNodes).tree := by
  have hlaid := bigState_journal (show 2^20<2^29 by decide)
  have hino : ∀ i p,(replay bigState bigNodes).ino i=some p → i=65∧p=⟨5,0⟩ := fun i p hp =>
    bigState_ino hp
  have hentry : ∀ e∈(replay bigState bigNodes).tree,e=⟨65,0,4096,false,none⟩ := by
    exact fun e he => List.mem_singleton.mp he
  refine ⟨⟨hlaid.len,fun i p hp => hlaid.inside i p (Or.inl hp),fun i j p q hp hq =>
    hlaid.apart i j p q (Or.inl hp) (Or.inl hq)⟩,?_,fun e he hex => ?_,fun e he p hp => ?_,
    fun e he => ?_,fun i p hi hp => ?_,fun i hi hnone block => ?_,fun lnum k hk => absurd rfl hk⟩
  · exact List.pairwise_singleton _ _
  · rw [hentry e he] at hex
    cases hex
  · rw [hentry e he]
    rfl
  · rw [hentry e he]
    decide
  · refine absurd ((hino i p hp).1.symm) (hi ⟨65,0,4096,false,none⟩ ?_)
    exact List.mem_singleton.mpr rfl
  · have hne : i≠65 := by
      rintro rfl
      refine hi ⟨65,0,4096,false,none⟩ ?_ rfl
      exact List.mem_singleton.mpr rfl
    change update bigState.data 65 (update (bigState.data 65) (2^20) true) i block=
      false
    rw [update_of_ne hne]
    rfl

/-- A data node that ends beyond 4GiB leaves a wrong size. -/
theorem recovered_size_truncated :
    Journal bigInfo bigState bigNodes∧
      ∃ s',ubifsRecoverSize bigInfo false (replay bigState bigNodes)=some s'∧
        s'.ino 65=some ⟨5,0⟩∧sizeAt s'.flash ⟨5,0⟩=4096∧furthest 65 bigNodes=2^32+4096∧
        ¬Right bigNodes bigState.flash s' := by
  obtain ⟨s',hs',hdone,hleft⟩ :=
    ubifsRecoverSize_ready (show bigInfo.minIoSize∣bigInfo.lebSize from ⟨32,rfl⟩) (by decide) false
      bigNodes_ready
  rw [hleft rfl] at hdone
  have hino : s'.ino 65=some ⟨5,0⟩ := congrFun (ubifsRecoverSize_ino hs') 65
  have hfar : furthest 65 bigNodes=2^32+4096 := by decide +kernel
  have hsize : sizeAt s'.flash ⟨5,0⟩=4096 := by
    rw [hdone.done 65 ⟨5,0⟩ (fun _ he => absurd he List.not_mem_nil) hino,bigState_size]
    rfl
  refine ⟨bigState_journal (by decide),s',hs',hino,hsize,hfar,fun hright => ?_⟩
  have hclaim := hright.size 65 ⟨5,0⟩ hino
  rw [hsize,bigState_size,hfar] at hclaim
  cases hclaim

end ArdroneKernel.UbifsSizes
