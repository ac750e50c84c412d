import Mathlib.Order.Interval.Finset.Nat
import ArdroneKernel.Execution
import ArdroneKernel.SearchTree

/-!
# Binder handles

A process names the nodes of other processes by descriptors. Each of its
references is in two search trees, one by descriptor and one by node, and a
new reference takes the first descriptor that a pass over the first tree
finds free.
-/

namespace ArdroneKernel.BinderHandles

open SearchTree Execution Function

/-- What a process knows of a node of another process. -/
structure Ref where
  /-- The address of the node. -/
  node : ℕ
  /-- The descriptor by which the process names it. -/
  desc : ℕ
  /-- Strong references that the process holds. -/
  strong : ℕ
  /-- Weak references that the process holds. -/
  weak : ℕ

/-- The references of a process, known by their addresses. -/
structure Proc where
  /-- What is stored at an address. -/
  ref : ℕ → Ref
  /-- Whether the reference at an address has been allocated and not freed. -/
  live : ℕ → Bool
  /-- The references by descriptor. -/
  refsByDesc : SearchTree.Tree ℕ
  /-- The references by node. -/
  refsByNode : SearchTree.Tree ℕ
  /-- The node of the context manager. -/
  contextMgrNode : ℕ
  /-- Whether `BUG()` has been reached. -/
  bug : Bool

/-- A process without references. -/
def Proc.init : Proc where
  ref _ := ⟨0,0,0,0⟩
  live _ := false
  refsByDesc := .nil
  refsByNode := .nil
  contextMgrNode := 0
  bug := false

/-- Where the walk for a key goes from an element with another one. -/
def turn (key elemKey : ℕ) : Turn :=
  if key<elemKey then .left else if key>elemKey then .right else .here

namespace Proc

/-- The walk for a descriptor. -/
def descTurn (p : Proc) (desc a : ℕ) : Turn := turn desc (p.ref a).desc

/-- The walk for a node. -/
def nodeTurn (p : Proc) (node a : ℕ) : Turn := turn node (p.ref a).node

/-- `binder_get_ref`: the reference with a descriptor. -/
def binderGetRef (p : Proc) (desc : ℕ) : Option ℕ := p.refsByDesc.find (p.descTurn desc)

/-- The loop of `binder_get_ref_for_node` over the references by descriptor,
with 32-bit descriptors. -/
def freeDesc (p : Proc) : ℕ → List ℕ → ℕ
  | desc,[] => desc
  | desc,a::l => if (p.ref a).desc>desc then desc else freeDesc p (((p.ref a).desc+1)%2^32) l

/-- The descriptor at which that loop starts. -/
def firstDesc (p : Proc) (node : ℕ) : ℕ := if node=p.contextMgrNode then 0 else 1

/-- The first part of making a reference at an address: the tree by node and
the descriptor. -/
def linkNode (bal : Rebalance) (p : Proc) (node a : ℕ) : Proc :=
  {p with
    ref := update p.ref a ⟨node,p.freeDesc (p.firstDesc node) p.refsByDesc.toList,0,0⟩
    live := update p.live a true
    refsByNode := bal.run (p.refsByNode.add (p.nodeTurn node) a)}

/-- The second part: a walk in the tree by descriptor, where no reference with
the descriptor may be. -/
def linkDesc (bal : Rebalance) (p : Proc) (a : ℕ) : Proc :=
  match p.refsByDesc.find (p.descTurn (p.ref a).desc) with
  | some _ => {p with bug := true}
  | none => {p with refsByDesc := bal.run (p.refsByDesc.add (p.descTurn (p.ref a).desc) a)}

/-- `binder_get_ref_for_node`, with the address that `kzalloc` returns: the
process after it and the reference. -/
def binderGetRefForNode (bal : Rebalance) (p : Proc) (node : ℕ) (mem : Option ℕ) :
    Proc×Option ℕ :=
  match p.refsByNode.find (p.nodeTurn node),mem with
  | some a,_ => (p,some a)
  | none,none => (p,none)
  | none,some a => ((p.linkNode bal node a).linkDesc bal a,some a)

/-- `binder_delete_ref`. -/
def binderDeleteRef (bal : Rebalance) (p : Proc) (a : ℕ) : Proc :=
  {p with
    refsByDesc := bal.run (p.refsByDesc.erase a)
    refsByNode := bal.run (p.refsByNode.erase a)
    live := update p.live a false}

/-- A reference with other counts. -/
def setCounts (p : Proc) (a strong weak : ℕ) : Proc :=
  {p with ref := update p.ref a ⟨(p.ref a).node,(p.ref a).desc,strong,weak⟩}

/-- `binder_inc_ref`, with what `binder_inc_node` returns if it is called. -/
def binderIncRef (p : Proc) (a : ℕ) (strong : Bool) (ret : ℤ) : Proc×ℤ :=
  if strong then
    if (p.ref a).strong=0∧ret≠0 then (p,ret)
    else (p.setCounts a (((p.ref a).strong+1)%2^32) (p.ref a).weak,0)
  else
    if (p.ref a).weak=0∧ret≠0 then (p,ret)
    else (p.setCounts a (p.ref a).strong (((p.ref a).weak+1)%2^32),0)

/-- The end of `binder_dec_ref`. -/
def dropRef (bal : Rebalance) (p : Proc) (a : ℕ) : Proc :=
  if (p.ref a).strong=0∧(p.ref a).weak=0 then p.binderDeleteRef bal a else p

def EINVAL : ℤ := 22

/-- `binder_dec_ref`, in which `binder_dec_node` returns 0 always. -/
def binderDecRef (bal : Rebalance) (p : Proc) (a : ℕ) (strong : Bool) : Proc×ℤ :=
  if strong then
    if (p.ref a).strong=0 then (p,-EINVAL)
    else ((p.setCounts a ((p.ref a).strong-1) (p.ref a).weak).dropRef bal a,0)
  else
    if (p.ref a).weak=0 then (p,-EINVAL)
    else ((p.setCounts a (p.ref a).strong ((p.ref a).weak-1)).dropRef bal a,0)

end Proc

/-- What happens to the references of a process. -/
inductive Event where
  /-- A reference to a node is asked for; what `kzalloc` returns if it is called. -/
  | getRefForNode (node : ℕ) (mem : Option ℕ)
  /-- A count goes up; what `binder_inc_node` returns if it is called. -/
  | incRef (a : ℕ) (strong : Bool) (ret : ℤ)
  /-- A count goes down. -/
  | decRef (a : ℕ) (strong : Bool)
  /-- A reference is deleted. -/
  | deleteRef (a : ℕ)
  /-- There is another context manager, or none. -/
  | setContextMgr (node : ℕ)

/-- `kzalloc` returns a pointer of 32 bits that is not in use, or none. -/
def Proc.fresh (p : Proc) : Option ℕ → Bool
  | none => true
  | some a => 0<a∧a<2^32∧p.live a=false

/-- The functions are called with references that exist. -/
def step (bal : Rebalance) (p : Proc) : Event → Option Proc
  | .getRefForNode node mem =>
    if p.fresh mem then some (p.binderGetRefForNode bal node mem).1 else none
  | .incRef a strong ret => if p.live a then some (p.binderIncRef a strong ret).1 else none
  | .decRef a strong => if p.live a then some (p.binderDecRef bal a strong).1 else none
  | .deleteRef a => if p.live a then some (p.binderDeleteRef bal a) else none
  | .setContextMgr node => some {p with contextMgrNode := node}

/-! ## The first free descriptor -/

/-- The first number from a start on that a pass over numbers in order leaves out. -/
def firstGap : ℕ → List ℕ → ℕ
  | d,[] => d
  | d,k::l => if k>d then d else firstGap (k+1) l

/-- Nothing before the start has to be skipped, except the number just before it. -/
theorem firstGap_isLeast {d : ℕ} {l : List ℕ} (sorted : l.Pairwise (·<·)) (hd : ∀ k∈l,d≤k+1) :
    IsLeast {g | d≤g∧g∉l} (firstGap d l) := by
  induction l generalizing d with
  | nil => exact ⟨⟨le_rfl,List.not_mem_nil⟩,fun g hg => hg.1⟩
  | cons k l ih =>
    have ⟨hk,hl⟩ := List.pairwise_cons.mp sorted
    have hdk := hd k List.mem_cons_self
    unfold firstGap
    split
    next hgap =>
      refine ⟨⟨le_rfl,fun hmem => ?_⟩,fun g hg => hg.1⟩
      cases List.mem_cons.mp hmem with
      | inl e => omega
      | inr e =>
        have := hk d e
        omega
    next hnext =>
      have hset : {g | d≤g∧g∉k::l}={g | k+1≤g∧g∉l} := by
        ext g
        simp only [Set.mem_ofPred_eq,List.mem_cons,not_or]
        constructor
        · intro ⟨h,hne,hmem⟩
          exact ⟨by omega,hmem⟩
        · intro ⟨h,hmem⟩
          exact ⟨by omega,by omega,hmem⟩
      rw [hset]
      exact ih hl fun j hj => by
        have := hk j hj
        omega

/-- With few references the descriptor does not wrap around. -/
theorem freeDesc_eq (p : Proc) {d : ℕ} {l : List ℕ} (h : d+l.length<2^32) :
    p.freeDesc d l=firstGap d (l.map fun a => (p.ref a).desc) := by
  induction l generalizing d with
  | nil => rfl
  | cons a l ih =>
    rw [List.length_cons] at h
    unfold Proc.freeDesc
    rw [List.map_cons,firstGap]
    split
    · rfl
    next hnext =>
      rw [Nat.mod_eq_of_lt (by omega)]
      exact ih (by omega)

/-! ## What holds between the calls -/

/-- The references are in both trees, each in its place. -/
structure Good (p : Proc) : Prop where
  /-- The first tree is in the order of the descriptors. -/
  descs : p.refsByDesc.toList.Pairwise fun a b => (p.ref a).desc<(p.ref b).desc
  /-- The second tree is in the order of the nodes. -/
  nodes : p.refsByNode.toList.Pairwise fun a b => (p.ref a).node<(p.ref b).node
  /-- The first tree has the references that exist. -/
  byDesc : ∀ a,a∈p.refsByDesc.toList ↔ p.live a=true
  /-- So has the second. -/
  byNode : ∀ a,a∈p.refsByNode.toList ↔ p.live a=true
  /-- References are where a pointer can point. -/
  range : ∀ a,p.live a=true → 0<a∧a<2^32
  /-- `BUG()` has not been reached. -/
  noBug : p.bug=false

theorem init_good : Good .init where
  descs := List.Pairwise.nil
  nodes := List.Pairwise.nil
  byDesc a := by simp [Proc.init,SearchTree.Tree.toList]
  byNode a := by simp [Proc.init,SearchTree.Tree.toList]
  range a h := nomatch h
  noBug := rfl

theorem turn_left {k y : ℕ} : turn k y=.left ↔ k<y := by
  unfold turn
  split
  · tauto
  · split <;> simp <;> omega

theorem turn_right {k y : ℕ} : turn k y=.right ↔ y<k := by
  unfold turn
  split
  · simp
    omega
  · split <;> simp <;> omega

theorem turn_here {k y : ℕ} : turn k y=.here ↔ k=y := by
  unfold turn
  split
  · simp
    omega
  · split <;> simp <;> omega

variable {p q : Proc} {a b : ℕ} (bal : Rebalance)

theorem descTurn_guides (p : Proc) (desc : ℕ) :
    Guides (fun a b => (p.ref a).desc<(p.ref b).desc) (p.descTurn desc) :=
  guides_of_key (fun a => (p.ref a).desc) desc (fun _ => turn_left) (fun _ => turn_here)
    fun _ => turn_right

theorem nodeTurn_guides (p : Proc) (node : ℕ) :
    Guides (fun a b => (p.ref a).node<(p.ref b).node) (p.nodeTurn node) :=
  guides_of_key (fun a => (p.ref a).node) node (fun _ => turn_left) (fun _ => turn_here)
    fun _ => turn_right

theorem setCounts_desc (p : Proc) (a strong weak b : ℕ) :
    ((p.setCounts a strong weak).ref b).desc=(p.ref b).desc := by
  unfold Proc.setCounts
  dsimp only
  by_cases hb : b=a
  · rw [hb,update_self]
  · rw [update_of_ne hb]

theorem setCounts_node (p : Proc) (a strong weak b : ℕ) :
    ((p.setCounts a strong weak).ref b).node=(p.ref b).node := by
  unfold Proc.setCounts
  dsimp only
  by_cases hb : b=a
  · rw [hb,update_self]
  · rw [update_of_ne hb]

@[simp] theorem setCounts_live (p : Proc) (a strong weak : ℕ) :
    (p.setCounts a strong weak).live=p.live := rfl

@[simp] theorem setCounts_self (p : Proc) (a strong weak : ℕ) :
    (p.setCounts a strong weak).ref a=⟨(p.ref a).node,(p.ref a).desc,strong,weak⟩ :=
  update_self _ _ _

namespace Good

/-- A walk for a descriptor finds the reference that has it. -/
theorem find_desc (h : Good p) (desc : ℕ) :
    p.binderGetRef desc=some a ↔ p.live a=true∧(p.ref a).desc=desc := by
  unfold Proc.binderGetRef
  rw [SearchTree.Tree.find_iff (descTurn_guides p desc) h.descs,h.byDesc]
  exact and_congr_right fun _ => turn_here.trans eq_comm

/-- A walk for a node finds the reference to it. -/
theorem find_node (h : Good p) (node : ℕ) :
    p.refsByNode.find (p.nodeTurn node)=some a ↔ p.live a=true∧(p.ref a).node=node := by
  rw [SearchTree.Tree.find_iff (nodeTurn_guides p node) h.nodes,h.byNode]
  exact and_congr_right fun _ => turn_here.trans eq_comm

theorem desc_inj (h : Good p) (ha : p.live a=true) (hb : p.live b=true)
    (he : (p.ref a).desc=(p.ref b).desc) : a=b := by
  have hfa := (h.find_desc (p.ref b).desc).mpr ⟨ha,he⟩
  have hfb := (h.find_desc (p.ref b).desc).mpr ⟨hb,rfl⟩
  exact Option.some.inj (hfa.symm.trans hfb)

theorem node_inj (h : Good p) (ha : p.live a=true) (hb : p.live b=true)
    (he : (p.ref a).node=(p.ref b).node) : a=b := by
  have hfa := (h.find_node (p.ref b).node).mpr ⟨ha,he⟩
  have hfb := (h.find_node (p.ref b).node).mpr ⟨hb,rfl⟩
  exact Option.some.inj (hfa.symm.trans hfb)

/-- A change of counts or of the context manager changes no names. -/
theorem of_names (h : Good p) (hdesc : q.refsByDesc=p.refsByDesc)
    (hnode : q.refsByNode=p.refsByNode) (hlive : q.live=p.live) (hbug : q.bug=p.bug)
    (hd : ∀ a,(q.ref a).desc=(p.ref a).desc) (hn : ∀ a,(q.ref a).node=(p.ref a).node) :
    Good q where
  descs := by
    simp only [hdesc,hd]
    exact h.descs
  nodes := by
    simp only [hnode,hn]
    exact h.nodes
  byDesc a := by
    rw [hdesc,hlive]
    exact h.byDesc a
  byNode a := by
    rw [hnode,hlive]
    exact h.byNode a
  range a := by
    rw [hlive]
    exact h.range a
  noBug := hbug.trans h.noBug

theorem setCounts (h : Good p) (a strong weak : ℕ) : Good (p.setCounts a strong weak) :=
  h.of_names rfl rfl rfl rfl (setCounts_desc p a strong weak) (setCounts_node p a strong weak)

/-- The reference leaves both trees. -/
theorem delete (bal : Rebalance) (h : Good p) (a : ℕ) : Good (p.binderDeleteRef bal a) := by
  have hmem : ∀ (b : ℕ) (t : SearchTree.Tree ℕ),(b∈t.toList ↔ p.live b=true) →
      (b∈(bal.run (t.erase a)).toList ↔ update p.live a false b=true) := by
    intro b t ht
    rw [bal.keeps,SearchTree.Tree.toList_erase,List.mem_filter,ht]
    by_cases hb : b=a
    · simp [hb]
    · simp [hb]
  constructor
  · rw [Proc.binderDeleteRef,bal.keeps,SearchTree.Tree.toList_erase]
    exact h.descs.filter _
  · rw [Proc.binderDeleteRef,bal.keeps,SearchTree.Tree.toList_erase]
    exact h.nodes.filter _
  · exact fun b => hmem b p.refsByDesc (h.byDesc b)
  · exact fun b => hmem b p.refsByNode (h.byNode b)
  · intro b hb
    refine h.range b ?_
    unfold Proc.binderDeleteRef at hb
    dsimp only at hb
    by_cases hba : b=a
    · rw [hba,update_self] at hb
      cases hb
    · rwa [update_of_ne hba] at hb
  · exact h.noBug

/-- There are fewer references than pointers, one of them not in use. -/
theorem length_lt (h : Good p) (ha : 0<a) (ha' : a<2^32) (hlive : p.live a=false) :
    p.refsByDesc.toList.length+1<2^32 := by
  have hnot : a∉p.refsByDesc.toList := fun hmem => by
    rw [h.byDesc,hlive] at hmem
    cases hmem
  have hnodup : (a::p.refsByDesc.toList).Nodup :=
    List.nodup_cons.mpr ⟨hnot,h.descs.imp fun hlt e => (e▸hlt).ne rfl⟩
  have hsub : (a::p.refsByDesc.toList).toFinset⊆Finset.Ioo 0 (2^32) := fun b hb => by
    rw [List.mem_toFinset,List.mem_cons,h.byDesc] at hb
    rw [Finset.mem_Ioo]
    cases hb with
    | inl e => exact e▸⟨ha,ha'⟩
    | inr e => exact h.range b e
  have hcard := Finset.card_le_card hsub
  rw [List.toFinset_card_of_nodup hnodup,List.length_cons,Nat.card_Ioo] at hcard
  omega

/-- The descriptor that the loop finds. -/
theorem freeDesc_isLeast (h : Good p) (ha : 0<a) (ha' : a<2^32) (hlive : p.live a=false)
    (node : ℕ) :
    IsLeast {d | p.firstDesc node≤d∧∀ b,p.live b=true → (p.ref b).desc≠d}
      (p.freeDesc (p.firstDesc node) p.refsByDesc.toList) := by
  have hfirst : p.firstDesc node≤1 := by
    unfold Proc.firstDesc
    split <;> omega
  have hlen := h.length_lt ha ha' hlive
  have hset : {d | p.firstDesc node≤d∧∀ b,p.live b=true → (p.ref b).desc≠d}=
      {d | p.firstDesc node≤d∧d∉p.refsByDesc.toList.map fun b => (p.ref b).desc} := by
    ext d
    simp only [Set.mem_ofPred_eq,List.mem_map,not_exists,not_and,h.byDesc,ne_eq]
  rw [hset,freeDesc_eq p (by omega)]
  exact firstGap_isLeast (List.pairwise_map.mpr h.descs) fun _ _ => by omega

end Good

/-- What a new reference is and what becomes of the process. -/
structure Created (p q : Proc) (node a : ℕ) : Prop where
  /-- It has been allocated. -/
  live : q.live=update p.live a true
  /-- It is a reference to the node. -/
  refers : (q.ref a).node=node
  /-- It has the first descriptor that is free. -/
  desc : IsLeast {d | p.firstDesc node≤d∧∀ b,p.live b=true → (p.ref b).desc≠d} (q.ref a).desc
  /-- The other references are as they were. -/
  others : ∀ b,b≠a → q.ref b=p.ref b

theorem linkNode_created (h : Good p) (node : ℕ) (ha : 0<a∧a<2^32) (hlive : p.live a=false) :
    Created p (p.linkNode bal node a) node a := by
  have hself : (p.linkNode bal node a).ref a=
      ⟨node,p.freeDesc (p.firstDesc node) p.refsByDesc.toList,0,0⟩ := update_self _ _ _
  refine ⟨rfl,?_,?_,fun b hb => update_of_ne hb _ _⟩
  · rw [hself]
  · rw [hself]
    exact h.freeDesc_isLeast ha.1 ha.2 hlive node

/-- A new reference is put into both trees at the places the walks lead to. -/
theorem Good.link (h : Good p) (node : ℕ) (ha : 0<a∧a<2^32) (hlive : p.live a=false)
    (hnone : p.refsByNode.find (p.nodeTurn node)=none) :
    Good ((p.linkNode bal node a).linkDesc bal a)∧
      Created p ((p.linkNode bal node a).linkDesc bal a) node a := by
  have hcreate := linkNode_created bal h node ha hlive
  have hbyNode : (p.linkNode bal node a).refsByNode=
    bal.run (p.refsByNode.add (p.nodeTurn node) a) := rfl
  have hbyDesc : (p.linkNode bal node a).refsByDesc=p.refsByDesc := rfl
  have hbug : (p.linkNode bal node a).bug=p.bug := rfl
  generalize p.linkNode bal node a=q at hcreate hbyNode hbyDesc hbug ⊢
  have hother : ∀ b,p.live b=true → q.ref b=p.ref b := by
    refine fun b hb => hcreate.others b ?_
    rintro rfl
    rw [hlive] at hb
    cases hb
  have hdescs : p.refsByDesc.toList.Pairwise fun b c => (q.ref b).desc<(q.ref c).desc := by
    refine h.descs.imp_of_mem fun {b c} hb hc hlt => ?_
    rwa [hother b ((h.byDesc b).mp hb),hother c ((h.byDesc c).mp hc)]
  have hnodes : p.refsByNode.toList.Pairwise fun b c => (q.ref b).node<(q.ref c).node := by
    refine h.nodes.imp_of_mem fun {b c} hb hc hlt => ?_
    rwa [hother b ((h.byNode b).mp hb),hother c ((h.byNode c).mp hc)]
  have hdescNone : p.refsByDesc.find (q.descTurn (q.ref a).desc)=none := by
    refine (SearchTree.Tree.find_none_iff (descTurn_guides q _) hdescs).mpr fun b hb ht => ?_
    have hbl := (h.byDesc b).mp hb
    have heq := turn_here.mp ht
    rw [hother b hbl] at heq
    exact hcreate.desc.1.2 b hbl heq.symm
  -- The walk for the node read the memory before the reference was there.
  have hturn : ∀ b∈p.refsByNode.toList,p.nodeTurn node b=q.nodeTurn node b := by
    intro b hb
    unfold Proc.nodeTurn
    rw [hother b ((h.byNode b).mp hb)]
  have hnodeNone : p.refsByNode.find (q.nodeTurn node)=none := by
    refine (SearchTree.Tree.find_none_iff (nodeTurn_guides q _) hnodes).mpr fun b hb => ?_
    rw [← hturn b hb]
    exact (SearchTree.Tree.find_none_iff (nodeTurn_guides p _) h.nodes).mp hnone b hb
  have hmem : ∀ (b : ℕ) (t t' : SearchTree.Tree ℕ),(b∈t.toList ↔ p.live b=true) →
      (b∈t'.toList ↔ b=a∨b∈t.toList) → (b∈t'.toList ↔ q.live b=true) := by
    intro b t t' ht ht'
    rw [ht',ht,hcreate.live]
    by_cases hb : b=a
    · simp [hb]
    · simp [hb]
  unfold Proc.linkDesc
  rw [hbyDesc,hdescNone]
  refine ⟨?_,hcreate.live,hcreate.refers,hcreate.desc,hcreate.others⟩
  constructor
  · rw [bal.keeps]
    exact SearchTree.Tree.add_pairwise (descTurn_guides q _) hdescs hdescNone
      (fun _ _ => turn_right.mp) fun _ _ => turn_left.mp
  · rw [hbyNode,bal.keeps,SearchTree.Tree.add_congr a hturn]
    rw [← hcreate.refers] at hnodeNone ⊢
    exact SearchTree.Tree.add_pairwise (nodeTurn_guides q _) hnodes hnodeNone
      (fun _ _ => turn_right.mp) fun _ _ => turn_left.mp
  · intro b
    refine hmem b _ _ (h.byDesc b) ?_
    rw [bal.keeps,SearchTree.Tree.mem_add hdescNone]
  · intro b
    refine hmem b _ _ (h.byNode b) ?_
    rw [hbyNode,bal.keeps,SearchTree.Tree.mem_add hnone]
  · intro b hb
    rw [hcreate.live] at hb
    by_cases hba : b=a
    · exact hba▸ha
    · rw [update_of_ne hba] at hb
      exact h.range b hb
  · exact hbug.trans h.noBug

/-! ## Runs -/

/-- Whether a call deletes a reference, itself or because its last count goes. -/
def Deletes (a : ℕ) (p : Proc) (e : Event) : Prop := e=.deleteRef a∨
  (e=.decRef a true∧(p.ref a).strong=1∧(p.ref a).weak=0)∨
  (e=.decRef a false∧(p.ref a).strong=0∧(p.ref a).weak=1)

/-- What a call does to the references and their names. -/
structure Named (p q : Proc) (e : Event) : Prop where
  /-- A reference that is there before and after it keeps its descriptor and node. -/
  keeps : ∀ a,p.live a=true → q.live a=true →
    (q.ref a).desc=(p.ref a).desc∧(q.ref a).node=(p.ref a).node
  /-- A reference goes away only when it is deleted. -/
  deleted : ∀ a,p.live a=true → q.live a=false → Deletes a p e
  /-- A new reference is one that was asked for, with the first free descriptor. -/
  created : ∀ a,p.live a=false → q.live a=true → ∃ node,e=.getRefForNode node (some a)∧
    (q.ref a).node=node∧(∀ b,p.live b=true → (p.ref b).node≠node)∧
    IsLeast {d | (if node=p.contextMgrNode then 0 else 1)≤d∧
      ∀ b,p.live b=true → (p.ref b).desc≠d} (q.ref a).desc

/-- A call that changes no names. -/
theorem Named.of_names {e : Event} (hlive : q.live=p.live)
    (hd : ∀ a,(q.ref a).desc=(p.ref a).desc) (hn : ∀ a,(q.ref a).node=(p.ref a).node) :
    Named p q e where
  keeps a _ _ := ⟨hd a,hn a⟩
  deleted a h h' := by
    rw [hlive,h] at h'
    cases h'
  created a h h' := by
    rw [hlive,h] at h'
    cases h'

/-- Deleting a reference makes none. -/
theorem delete_live (p : Proc) {b : ℕ} (h : (p.binderDeleteRef bal a).live b=true) :
    p.live b=true := by
  unfold Proc.binderDeleteRef at h
  dsimp only at h
  by_cases hb : b=a
  · rw [hb,update_self] at h
    cases h
  · rwa [update_of_ne hb] at h

theorem delete_gone (p : Proc) {b : ℕ} (h : p.live b=true)
    (h' : (p.binderDeleteRef bal a).live b=false) : b=a := by
  by_contra hb
  rw [Proc.binderDeleteRef] at h'
  dsimp only at h'
  rw [update_of_ne hb,h] at h'
  cases h'

theorem dropRef_live (p : Proc) {b : ℕ} (h : (p.dropRef bal a).live b=true) : p.live b=true := by
  unfold Proc.dropRef at h
  split at h
  · exact delete_live bal p h
  · exact h

theorem dropRef_gone (p : Proc) {b : ℕ} (h : p.live b=true) (h' : (p.dropRef bal a).live b=false) :
    b=a∧(p.ref a).strong=0∧(p.ref a).weak=0 := by
  unfold Proc.dropRef at h'
  split at h'
  next hz => exact ⟨delete_gone bal p h h',hz⟩
  · rw [h] at h'
    cases h'

theorem dropRef_ref (p : Proc) (a : ℕ) : (p.dropRef bal a).ref=p.ref := by
  unfold Proc.dropRef
  split <;> rfl

theorem dropRef_good (h : Good p) (a : ℕ) : Good (p.dropRef bal a) := by
  unfold Proc.dropRef
  split
  · exact h.delete bal a
  · exact h

theorem binderGetRefForNode_good (h : Good p) (node : ℕ) {mem : Option ℕ}
    (hfresh : p.fresh mem=true) :
    Good (p.binderGetRefForNode bal node mem).1∧
      Named p (p.binderGetRefForNode bal node mem).1 (.getRefForNode node mem) := by
  unfold Proc.binderGetRefForNode
  split
  · exact ⟨h,.of_names rfl (fun _ => rfl) fun _ => rfl⟩
  · exact ⟨h,.of_names rfl (fun _ => rfl) fun _ => rfl⟩
  next a hnone =>
    simp only [Proc.fresh,decide_eq_true_eq] at hfresh
    have ⟨hgood,hcreate⟩ := h.link bal node ⟨hfresh.1,hfresh.2.1⟩ hfresh.2.2 hnone
    refine ⟨hgood,fun b hb _ => ?_,fun b hb hb' => ?_,fun b hb hb' => ?_⟩
    · have hne : b≠a := by
        rintro rfl
        rw [hfresh.2.2] at hb
        cases hb
      rw [hcreate.others b hne]
      exact ⟨rfl,rfl⟩
    · rw [hcreate.live] at hb'
      by_cases hne : b=a
      · rw [hne,update_self] at hb'
        cases hb'
      · rw [update_of_ne hne,hb] at hb'
        cases hb'
    · rw [hcreate.live] at hb'
      by_cases hne : b=a
      · subst hne
        refine ⟨node,rfl,hcreate.refers,fun c hc hcn => ?_,hcreate.desc⟩
        rw [(h.find_node node).mpr ⟨hc,hcn⟩] at hnone
        cases hnone
      · rw [update_of_ne hne,hb] at hb'
        cases hb'

theorem binderIncRef_good (h : Good p) (a : ℕ) (strong : Bool) (ret : ℤ) {e : Event} :
    Good (p.binderIncRef a strong ret).1∧Named p (p.binderIncRef a strong ret).1 e := by
  have hset : ∀ s w,Good (p.setCounts a s w)∧Named p (p.setCounts a s w) e := fun s w =>
    ⟨h.setCounts a s w,.of_names rfl (setCounts_desc p a s w) (setCounts_node p a s w)⟩
  have hsame : Good p∧Named p p e := ⟨h,.of_names rfl (fun _ => rfl) fun _ => rfl⟩
  unfold Proc.binderIncRef
  split
  · split
    · exact hsame
    · exact hset _ _
  · split
    · exact hsame
    · exact hset _ _

/-- A count goes down, and the reference is deleted when it was the last one. -/
theorem setCounts_dropRef_named (p : Proc) {s w : ℕ} {e : Event} (h : s=0 → w=0 → Deletes a p e) :
    Named p ((p.setCounts a s w).dropRef bal a) e where
  keeps b _ _ := by
    rw [dropRef_ref]
    exact ⟨setCounts_desc p a s w b,setCounts_node p a s w b⟩
  deleted b hb hb' := by
    have ⟨hba,hs,hw⟩ := dropRef_gone bal (p.setCounts a s w) hb hb'
    rw [setCounts_self] at hs hw
    rw [hba]
    exact h hs hw
  created b hb hb' := by
    have hlive := dropRef_live bal (p.setCounts a s w) hb'
    rw [setCounts_live,hb] at hlive
    cases hlive

theorem binderDecRef_good (h : Good p) (a : ℕ) (strong : Bool) :
    Good (p.binderDecRef bal a strong).1∧
      Named p (p.binderDecRef bal a strong).1 (.decRef a strong) := by
  have hsame : Good p∧Named p p (.decRef a strong) :=
    ⟨h,.of_names rfl (fun _ => rfl) fun _ => rfl⟩
  unfold Proc.binderDecRef
  cases strong with
  | true =>
    rw [if_pos rfl]
    split
    · exact hsame
    next hs =>
      refine ⟨dropRef_good bal (h.setCounts a _ _) a,setCounts_dropRef_named bal p ?_⟩
      exact fun h1 h2 => Or.inr (Or.inl ⟨rfl,by omega,h2⟩)
  | false =>
    rw [if_neg Bool.false_ne_true]
    split
    · exact hsame
    next hw =>
      refine ⟨dropRef_good bal (h.setCounts a _ _) a,setCounts_dropRef_named bal p ?_⟩
      exact fun h1 h2 => Or.inr (Or.inr ⟨rfl,h1,by omega⟩)

theorem binderDeleteRef_named (p : Proc) (a : ℕ) :
    Named p (p.binderDeleteRef bal a) (.deleteRef a) where
  keeps _ _ _ := ⟨rfl,rfl⟩
  deleted b hb hb' := Or.inl (congrArg Event.deleteRef (delete_gone bal p hb hb').symm)
  created b hb hb' := by
    rw [delete_live bal p hb'] at hb
    cases hb

/-- Every call keeps the references in their places. -/
theorem step_good (h : Good p) {e : Event} (hstep : step bal p e=some q) :
    Good q∧Named p q e := by
  cases e with
  | getRefForNode node mem =>
    obtain ⟨hfresh,hq⟩ := Option.ite_none_right_eq_some.mp hstep
    cases hq
    exact binderGetRefForNode_good bal h node hfresh
  | incRef a strong ret =>
    obtain ⟨_,hq⟩ := Option.ite_none_right_eq_some.mp hstep
    cases hq
    exact binderIncRef_good h a strong ret
  | decRef a strong =>
    obtain ⟨_,hq⟩ := Option.ite_none_right_eq_some.mp hstep
    cases hq
    exact binderDecRef_good bal h a strong
  | deleteRef a =>
    obtain ⟨_,hq⟩ := Option.ite_none_right_eq_some.mp hstep
    cases hq
    exact ⟨h.delete bal a,binderDeleteRef_named bal p a⟩
  | setContextMgr node =>
    cases hstep
    exact ⟨h.of_names rfl rfl rfl rfl (fun _ => rfl) fun _ => rfl,
      .of_names rfl (fun _ => rfl) fun _ => rfl⟩

theorem run_good {bal : Rebalance} {ok : Proc → Event → Prop} {es : List Event}
    (hrun : Run (step bal) ok p es q) (h : Good p) : Good q :=
  hrun.invariant Good h fun hg _ hstep => (step_good bal hg hstep).1

/-- A reference that no call of a run deletes keeps its names. -/
theorem run_named {bal : Rebalance} {es : List Event}
    (hrun : Run (step bal) (fun p e => ¬Deletes a p e) p es q) (h : Good p)
    (ha : p.live a=true) :
    q.live a=true∧(q.ref a).desc=(p.ref a).desc∧(q.ref a).node=(p.ref a).node := by
  refine (hrun.invariant (fun r => Good r∧r.live a=true∧(r.ref a).desc=(p.ref a).desc∧
    (r.ref a).node=(p.ref a).node) ⟨h,ha,rfl,rfl⟩ ?_).2
  rintro r r' e ⟨hgood,hlive,hdesc,hnode⟩ hok hstep
  have ⟨hgood',hnamed⟩ := step_good bal hgood hstep
  have hlive' : r'.live a=true :=
    Bool.of_not_eq_false fun hgone => hok (hnamed.deleted a hlive hgone)
  have ⟨hd,hn⟩ := hnamed.keeps a hlive hlive'
  exact ⟨hgood',hlive',hd.trans hdesc,hn.trans hnode⟩

/-- The references of a process are names of nodes. -/
structure Handles (p : Proc) : Prop where
  /-- Both trees contain the same references, the ones that exist. -/
  same : ∀ a,(a∈p.refsByDesc.toList ↔ p.live a=true)∧(a∈p.refsByNode.toList ↔ p.live a=true)
  /-- No reference is in a tree twice. -/
  once : p.refsByDesc.toList.Nodup∧p.refsByNode.toList.Nodup
  /-- No two references have the same descriptor. -/
  descs : ∀ a b,p.live a=true → p.live b=true → (p.ref a).desc=(p.ref b).desc → a=b
  /-- No two references have the same node. -/
  nodes : ∀ a b,p.live a=true → p.live b=true → (p.ref a).node=(p.ref b).node → a=b
  /-- The reference with a descriptor is found by it. -/
  found : ∀ desc a,p.binderGetRef desc=some a ↔ p.live a=true∧(p.ref a).desc=desc
  /-- `BUG()` has not been reached. -/
  noBug : p.bug=false

theorem Good.handles (h : Good p) : Handles p where
  same a := ⟨h.byDesc a,h.byNode a⟩
  once := ⟨h.descs.imp fun hlt e => (e▸hlt).ne rfl,h.nodes.imp fun hlt e => (e▸hlt).ne rfl⟩
  descs _ _ := h.desc_inj
  nodes _ _ := h.node_inj
  found desc _ := h.find_desc desc
  noBug := h.noBug

/-- After every run, the references are names; the next call gives a new
reference the first free descriptor and changes no name; and a reference that
no call deletes keeps its names however the run goes on. -/
theorem handles_stable (bal : Rebalance) {es : List Event}
    (hrun : Run (step bal) (fun _ _ => True) .init es p) :
    Handles p∧(∀ e q,step bal p e=some q → Named p q e)∧
      ∀ a es' q,p.live a=true → Run (step bal) (fun p e => ¬Deletes a p e) p es' q →
        q.live a=true∧(q.ref a).desc=(p.ref a).desc∧(q.ref a).node=(p.ref a).node := by
  have h := run_good hrun init_good
  exact ⟨h.handles,fun e q hstep => (step_good bal h hstep).2,fun a es' q ha hrun' =>
    run_named hrun' h ha⟩

/-- The second of three references is deleted, and the next one gets its descriptor. -/
theorem handles_stable_example : ∃ p,Run (step .none) (fun _ _ => True) .init
    [.getRefForNode 64 (some 4),.getRefForNode 96 (some 8),.getRefForNode 32 (some 12),
      .deleteRef 8,.getRefForNode 80 (some 16)] p∧
    Handles p∧(p.ref 16).desc=2∧∀ e q,step .none p e=some q → Named p q e := by
  have hrun : Run (step .none) (fun _ _ => True) .init
      [.getRefForNode 64 (some 4),.getRefForNode 96 (some 8),.getRefForNode 32 (some 12),
        .deleteRef 8,.getRefForNode 80 (some 16)] _ :=
    Run.cons trivial rfl <| Run.cons trivial rfl <| Run.cons trivial rfl <|
      Run.cons trivial rfl <| Run.cons trivial rfl <| Run.nil _
  have ⟨hhandles,hnamed,_⟩ := handles_stable .none hrun
  exact ⟨_,hrun,hhandles,rfl,hnamed⟩

end ArdroneKernel.BinderHandles
