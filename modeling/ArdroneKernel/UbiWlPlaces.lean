import ArdroneKernel.UbiWearLeveling
import ArdroneKernel.Execution
import Mathlib.Data.List.Nodup

/-!
# Where eraseblocks are

Each eraseblock with a wear-leveling entry is in one tree, list or work, or in
the hands of one call or work, or its entry was given back. Eraseblocks that
callers use are where a put finds them.
-/

namespace ArdroneKernel.UbiWlPlaces

open SearchTree UbiScan UbiWearLeveling

/-! ## Trees -/

/-- The tree is in order. -/
def Sorted (ec : ℕ → ℤ) (t : SearchTree.Tree ℕ) : Prop := t.toList.Pairwise (Before ec)

variable (ec : ℕ → ℤ)

theorem guides_add (e : ℕ) : Guides (Before ec) (addTurn ec e) where
  left := by
    unfold Before addTurn
    intro a b h
    split_ifs <;> simp <;> omega
  right := by
    unfold Before addTurn
    intro a b h
    split_ifs <;> simp <;> omega
  after := by
    unfold Before addTurn
    intro a b h
    split_ifs <;> simp
  before := by
    unfold Before addTurn
    intro a b h
    split_ifs <;> simp

theorem guides_find (e : ℕ) : Guides (Before ec) (findTurn ec e) where
  left := by
    unfold Before findTurn
    intro a b h
    split_ifs <;> simp <;> grind
  right := by
    unfold Before findTurn
    intro a b h
    split_ifs <;> simp <;> grind
  after := by
    unfold Before findTurn
    intro a b h
    split_ifs <;> simp <;> grind
  before := by
    unfold Before findTurn
    intro a b h
    split_ifs <;> simp <;> grind

theorem findTurn_here (e a : ℕ) : findTurn ec e a=.here ↔ a=e := by
  unfold findTurn
  split_ifs <;> simp <;> omega

theorem addTurn_find (e : ℕ) (t : SearchTree.Tree ℕ) : t.find (addTurn ec e)=none := by
  induction t with
  | nil => rfl
  | node l x r ihl ihr =>
    unfold Tree.find
    have hne : addTurn ec e x≠.here := by
      unfold addTurn
      split_ifs <;> simp
    cases hd : addTurn ec e x with
    | left => exact ihl
    | here => exact absurd hd hne
    | right => exact ihr

section

variable {rb : Rebalance} {ec : ℕ → ℤ} {e : ℕ} {t : SearchTree.Tree ℕ} (rb : Rebalance)

theorem count_add (ec : ℕ → ℤ) (e : ℕ) (t : SearchTree.Tree ℕ) (a : ℕ) :
    (wlTreeAdd rb ec e t).toList.count a=t.toList.count a+[e].count a := by
  have ⟨l1,l2,hl,hf⟩ := Tree.add_split (addTurn_find ec e t)
  unfold wlTreeAdd
  rw [rb.keeps,hf,hl]
  simp only [List.count_append,List.count_cons,List.count_nil]
  omega

theorem sorted_add (h : Sorted ec t) (he : e∉t.toList) :
    Sorted ec (wlTreeAdd rb ec e t) := by
  unfold Sorted wlTreeAdd
  rw [rb.keeps]
  have hne : ∀ y∈t.toList,y≠e := fun y hy heq => he (heq▸hy)
  apply Tree.add_pairwise (guides_add ec e) h (addTurn_find ec e t)
  · intro y hy hd
    have := hne y hy
    unfold addTurn at hd
    unfold Before
    split_ifs at hd <;> omega
  · intro y hy hd
    unfold addTurn at hd
    unfold Before
    split_ifs at hd <;> omega

theorem find_self (h : Sorted ec t) (he : e∈t.toList) : t.find (findTurn ec e)=some e :=
  (Tree.find_iff (guides_find ec e) h e).mpr ⟨he,(findTurn_here ec e e).mpr rfl⟩

/-- `in_wl_tree` finds out whether the entry is in an ordered tree. -/
theorem inWlTree_iff (h : Sorted ec t) : inWlTree ec e t=true ↔ e∈t.toList := by
  unfold inWlTree
  constructor
  · intro k
    have ⟨x,hx⟩ := Option.isSome_iff_exists.mp k
    have ⟨hm,hd⟩ := (Tree.find_iff (guides_find ec e) h x).mp hx
    rwa [(findTurn_here ec e x).mp hd] at hm
  · intro k
    rw [find_self h k]
    rfl

theorem count_erase (h : Sorted ec t) (he : e∈t.toList) (a : ℕ) :
    (rbErase rb ec e t).toList.count a+[e].count a=t.toList.count a := by
  have ⟨l1,l2,hl,hf⟩ := Tree.remove_split (find_self h he)
  unfold rbErase
  rw [rb.keeps,hf,hl]
  simp only [List.count_append,List.count_cons,List.count_nil]
  omega

theorem length_add (ec : ℕ → ℤ) (e : ℕ) (t : SearchTree.Tree ℕ) :
    (wlTreeAdd rb ec e t).toList.length=t.toList.length+1 := by
  have ⟨l1,l2,hl,hf⟩ := Tree.add_split (addTurn_find ec e t)
  unfold wlTreeAdd
  rw [rb.keeps,hf,hl]
  simp only [List.length_append,List.length_cons]
  omega

theorem length_erase (h : Sorted ec t) (he : e∈t.toList) :
    (rbErase rb ec e t).toList.length+1=t.toList.length := by
  have ⟨l1,l2,hl,hf⟩ := Tree.remove_split (find_self h he)
  unfold rbErase
  rw [rb.keeps,hf,hl]
  simp only [List.length_append,List.length_cons]
  omega

theorem sorted_erase (h : Sorted ec t) (he : e∈t.toList) :
    Sorted ec (rbErase rb ec e t) := by
  have ⟨l1,l2,hl,hf⟩ := Tree.remove_split (find_self h he)
  unfold Sorted at h ⊢
  unfold rbErase
  rw [rb.keeps,hf]
  rw [hl] at h
  exact h.sublist (List.sublist_append_iff.mpr ⟨l1,l2,rfl,List.Sublist.refl _,List.sublist_cons_self e l2⟩)

/-- A new counter of an entry outside a tree does not change its order. -/
theorem sorted_update (h : Sorted ec t) (he : e∉t.toList) (v : ℤ) :
    Sorted (Function.update ec e v) t := by
  refine h.imp_of_mem fun {a b} ha hb k => ?_
  have hae : a≠e := fun heq => he (heq▸ha)
  have hbe : b≠e := fun heq => he (heq▸hb)
  unfold Before
  rw [Function.update_of_ne hae,Function.update_of_ne hbe]
  exact k

theorem closest_mem (ec : ℕ → ℤ) (max : ℤ) (e : ℕ) (t : SearchTree.Tree ℕ) :
    closest ec max e t=e∨closest ec max e t∈t.toList := by
  induction t generalizing e with
  | nil => exact Or.inl rfl
  | node l x r ihl ihr =>
    unfold closest
    split
    · rcases ihl e with h|h
      · exact Or.inl h
      · exact Or.inr (List.mem_append_left _ h)
    · rcases ihr x with h|h
      · exact Or.inr (List.mem_append_right _ (h.symm▸List.mem_cons_self))
      · exact Or.inr (List.mem_append_right _ (List.mem_cons_of_mem x h))

/-- `find_wl_entry` returns an entry of the tree. -/
theorem findWlEntry_mem {max : ℤ} (h : findWlEntry ec t max=some e) : e∈t.toList := by
  have ⟨x,hx,hc⟩ := Option.map_eq_some_iff.mp h
  have hm := Tree.first_mem hx
  rcases closest_mem ec (max+ec x) x t with k|k
  · rwa [←hc,k]
  · rwa [←hc]

end

/-! ## Lists -/

/-- A call or work comes to another place. -/
theorem count_set {α : Type} (f : α → List ℕ) {l : List α} {i : ℕ} {x y : α} (h : l[i]?=some x)
    (a : ℕ) : ((l.set i y).flatMap f).count a+(f x).count a=
      (l.flatMap f).count a+(f y).count a := by
  induction l generalizing i with
  | nil => simp at h
  | cons z l ih =>
    cases i with
    | zero =>
      have hz : z=x := by simpa using h
      subst hz
      simp only [List.set_cons_zero,List.flatMap_cons,List.count_append]
      omega
    | succ i =>
      have := ih (i := i) (by simpa using h)
      simp only [List.set_cons_succ,List.flatMap_cons,List.count_append]
      omega

theorem count_modify {l : List (List ℕ)} {k : ℕ} (hk : k<l.length) (f : List ℕ → List ℕ) (a : ℕ) :
    (l.modify k f).flatten.count a+(l.getD k []).count a=
      l.flatten.count a+(f (l.getD k [])).count a := by
  induction l generalizing k with
  | nil => simp at hk
  | cons z l ih =>
    cases k with
    | zero =>
      simp only [List.modify_zero_cons,List.flatten_cons,List.count_append,List.getD_cons_zero]
      omega
    | succ k =>
      have := ih (k := k) (by simpa using hk)
      simp only [List.modify_succ_cons,List.flatten_cons,List.count_append,List.getD_cons_succ]
      omega

/-- An entry that occurs once is taken off its slot. -/
theorem count_slots_erase {l : List (List ℕ)} {e : ℕ} (h : l.flatten.count e=1) (a : ℕ) :
    (l.map fun slot => slot.erase e).flatten.count a+[e].count a=l.flatten.count a := by
  induction l with
  | nil => simp at h
  | cons z l ih =>
    rw [List.flatten_cons,List.count_append] at h
    simp only [List.map_cons,List.flatten_cons,List.count_append]
    have other : ∀ l : List (List ℕ),l.flatten.count e=0 →
        (l.map fun slot => slot.erase e)=l := by
      intro l hl
      refine (List.map_congr_left fun s hs => ?_).trans (List.map_id l)
      apply List.erase_of_not_mem
      intro hm
      exact List.count_eq_zero.mp hl (List.mem_flatten_of_mem hs hm)
    by_cases hz : e∈z
    · have hpos := List.count_pos_iff.mpr hz
      rw [other l (by omega),List.count_erase]
      have hle : [e].count a≤z.count a := by
        simp only [List.count_cons,List.count_nil]
        split
        next hb =>
          have hea : e=a := by simpa using hb
          subst hea
          omega
        · omega
      simp only [List.count_cons,List.count_nil] at hle ⊢
      omega
    · rw [List.erase_of_not_mem hz]
      have := ih (by
        have := List.count_eq_zero.mpr hz
        omega)
      omega

/-! ## Places -/

/-- The eraseblock of an erase work. -/
def workPebs : Work → List ℕ
  | .erase e _ => [e]
  | .wearLeveling => []

/-- The eraseblock of a running erase work. -/
def erasing : Thread → List ℕ
  | .erase e _ => [e]
  | .erased e => [e]
  | _ => []

/-- The eraseblock that a call took out of its place to have it erased. -/
def putHands : Thread → List ℕ
  | .putErase e _ => [e]
  | .putBack e => [e]
  | _ => []

/-- The eraseblock that a call is about to look for. -/
def putting : Thread → List ℕ
  | .put e _ => [e]
  | _ => []

/-- The eraseblocks that a finished move is about to have erased. -/
def moverHands : Mover → List ℕ
  | .eraseSource e1 e2 => e1::e2.toList
  | .eraseTarget e2 _ => [e2]
  | _ => []

/-- Source and target of a move. -/
def moving : Mover → Option (ℕ×ℕ)
  | .copy e1 e2 _ => some (e1,e2)
  | .copied e1 e2 => some (e1,e2)
  | .notMoved e1 e2 _ _ _ _ => some (e1,e2)
  | .failed e1 e2 => some (e1,e2)
  | _ => none

/-- The eraseblock of a move that may be in use. -/
def movedInUse (mover : Mover) (moveFrom : Option ℕ) (moveToPut : Bool) : List ℕ :=
  match mover with
  | .copied _ e2 => if moveToPut then [] else [e2]
  | _ => moveFrom.toList

/-- What holds of the wear-leveling data between any two steps. -/
structure Inv (pebs : List ℕ) (st : State) : Prop where
  /-- Each eraseblock is in one place. -/
  total : ∀ a,st.free.toList.count a+st.used.toList.count a+st.scrub.toList.count a+
    st.erroneous.toList.count a+st.pq.flatten.count a+(st.works.flatMap workPebs).count a+
    (st.threads.flatMap erasing).count a+st.moveFrom.toList.count a+st.moveTo.toList.count a+
    (st.threads.flatMap putHands).count a+(moverHands st.mover).count a+st.freed.count a=
      pebs.count a
  /-- An eraseblock in use is where a put finds it. -/
  inUse : ∀ a,st.held.count a+(st.threads.flatMap putting).count a≤
    st.used.toList.count a+st.scrub.toList.count a+st.erroneous.toList.count a+
      st.pq.flatten.count a+(movedInUse st.mover st.moveFrom st.moveToPut).count a
  free : Sorted st.ec st.free
  used : Sorted st.ec st.used
  scrub : Sorted st.ec st.scrub
  erroneous : Sorted st.ec st.erroneous
  works : st.worksCount=st.works.length
  errors : st.erroneousPebCount=st.erroneous.toList.length
  queue : st.pq.length=UBI_PROT_QUEUE_LEN
  head : st.pqHead<UBI_PROT_QUEUE_LEN
  source : st.moveFrom=(moving st.mover).map Prod.fst
  target : st.moveTo=(moving st.mover).map Prod.snd
  /-- Only the target of a finished move can be put. -/
  targetPut : st.moveToPut=true → ∃ e1 e2,st.mover=.copied e1 e2

/-- What leaves no entry both given back and known to somebody: an erasure that
failed is not scheduled again, and a move that failed had a source that is
neither in use nor being put. -/
def harmless (st : State) : Event → Bool
  | .thread i o =>
    match st.threads.getD i .done with
    | .retry _ => !o.mem
    | _ => true
  | .mover _ =>
    match st.mover with
    | .failed e1 _ => decide (e1∉st.held++st.threads.flatMap putting)
    | _ => true
  | _ => true

/-! ## Steps -/

section

variable {cfg : Config} {pebs : List ℕ} {st st' : State} {e1 e2 : ℕ} {i e : ℕ} {torture : Bool}
  {scrubbing : Bool}

theorem count_le_one (nd : pebs.Nodup) (a : ℕ) : pebs.count a≤1 :=
  List.nodup_iff_count_le_one.mp nd a

theorem pickFree_mem {dtype : Dtype} {e : ℕ} (h : pickFree cfg st dtype=some e) :
    e∈st.free.toList := by
  unfold pickFree at h
  split at h
  · exact findWlEntry_mem h
  · exact Tree.first_mem h
  · split at h
    · split at h
      · unfold rbNode at h
        split at h
        · simp at h
        next l x r hx =>
          cases h
          rw [hx]
          simp [Tree.toList]
      · exact findWlEntry_mem h
    · simp at h

/-- The slot that `prot_queue_add` fills. -/
theorem count_protQueueAdd (h : Inv pebs st) (e a : ℕ) :
    (protQueueAdd st e).pq.flatten.count a=st.pq.flatten.count a+[e].count a := by
  unfold protQueueAdd
  dsimp only
  have hh := h.head
  have hq := h.queue
  have hk : (if st.pqHead=0 then UBI_PROT_QUEUE_LEN-1 else st.pqHead-1)<st.pq.length := by
    rw [hq]
    split <;> omega
  have := count_modify hk (·++[e]) a
  simp only [List.count_append] at this
  omega

theorem moved_le (h : Inv pebs st) (a : ℕ) :
    (movedInUse st.mover st.moveFrom st.moveToPut).count a≤
      st.moveFrom.toList.count a+st.moveTo.toList.count a := by
  have ht := h.target
  unfold movedInUse
  split
  next e1 e2 hm =>
    rw [hm] at ht
    rw [ht]
    split
    · exact Nat.zero_le _
    · exact Nat.le_add_left _ _
  · exact Nat.le_add_right _ _

/-- An eraseblock in another place is not in use. -/
theorem not_inUse (nd : pebs.Nodup) (h : Inv pebs st) {e : ℕ}
    (he : 0<st.free.toList.count e+(st.works.flatMap workPebs).count e+
      (st.threads.flatMap erasing).count e+(st.threads.flatMap putHands).count e+
      (moverHands st.mover).count e+st.freed.count e) :
    st.held.count e=0∧(st.threads.flatMap putting).count e=0 := by
  have := h.total e
  have := h.inUse e
  have := moved_le h e
  have := count_le_one nd e
  constructor <;> omega

theorem get_inv (h : Inv pebs st) {dtype : Dtype} {e : ℕ}
    (ok : ubiWlGetPeb cfg st dtype=some (st',e)) : Inv pebs st' := by
  have ⟨x,hx,heq⟩ := Option.map_eq_some_iff.mp ok
  cases heq
  have hm := pickFree_mem hx
  have hq := count_protQueueAdd h e
  have hf := count_erase cfg.rb h.free hm
  refine { h with
    total := fun a => ?_, inUse := fun a => ?_, free := sorted_erase cfg.rb h.free hm,
    queue := (List.length_modify _ _ _).trans h.queue }
  · have := h.total a
    have := hq a
    have := hf a
    simp only [protQueueAdd] at *
    omega
  · have := h.inUse a
    have := hq a
    simp only [protQueueAdd,List.count_cons,List.count_nil] at *
    omega

/-- A call or work begins. -/
theorem start_inv (h : Inv pebs st) {t : Thread} (he : erasing t=[]) (hp : putHands t=[])
    (hq : putting t=[]) : Inv pebs (st.start t) := by
  have count : ∀ f : Thread → List ℕ,f t=[] → ∀ a,
      ((st.threads++[t]).flatMap f).count a=(st.threads.flatMap f).count a := by
    intro f hf a
    simp [hf]
  refine { h with total := fun a => ?_, inUse := fun a => ?_ }
  · have := h.total a
    simp only [State.start,count erasing he,count putHands hp]
    omega
  · have := h.inUse a
    simp only [State.start,count putting hq] at *
    omega

/-- A call or work goes on with the same eraseblocks. -/
theorem goTo_inv (h : Inv pebs st) {i : ℕ} {t t' : Thread} (hi : st.threads[i]?=some t)
    (he : erasing t'=erasing t) (hp : putHands t'=putHands t) (hq : putting t'=putting t) :
    Inv pebs (st.goTo i t') := by
  refine { h with total := fun a => ?_, inUse := fun a => ?_ }
  · have := h.total a
    have := count_set (y := t') erasing hi a
    have := count_set (y := t') putHands hi a
    simp only [State.goTo,he,hp] at *
    omega
  · have := h.inUse a
    have := count_set (y := t') putting hi a
    simp only [State.goTo,hq] at *
    omega

theorem work_inv (h : Inv pebs st) (ok : doWork st=some st') : Inv pebs st' := by
  unfold doWork at ok
  have hw := h.works
  split at ok
  · simp at ok
  next e torture works hworks =>
    cases ok
    refine { h with total := fun a => ?_, inUse := fun a => ?_, works := ?_ }
    · have := h.total a
      rw [hworks] at this
      simp only [State.start,List.flatMap_append,List.flatMap_cons,List.flatMap_nil,workPebs,
        erasing,putHands,List.count_append,List.append_nil] at *
      omega
    · have := h.inUse a
      simp only [State.start,List.flatMap_append,List.flatMap_cons,List.flatMap_nil,putting,
        List.append_nil] at *
      omega
    · rw [hworks,List.length_cons] at hw
      simp only [State.start]
      omega
  next works hworks =>
    cases ok
    refine start_inv (t := .move) ?_ rfl rfl rfl
    refine { h with total := fun a => ?_, works := ?_ }
    · have := h.total a
      rw [hworks] at this
      simp only [List.flatMap_cons,workPebs,List.nil_append] at *
      omega
    · rw [hworks,List.length_cons] at hw
      dsimp only
      omega

theorem put_inv (h : Inv pebs st) {e : ℕ} (he : e∈st.held) :
    Inv pebs ({ st with held := st.held.erase e }.start (.put e torture)) := by
  refine { h with total := fun a => ?_, inUse := fun a => ?_ }
  · have := h.total a
    simp only [State.start,List.flatMap_append,List.flatMap_cons,List.flatMap_nil,erasing,putHands,
      List.append_nil] at *
    omega
  · have := h.inUse a
    have hc : (st.held.erase e).count a+[e].count a=st.held.count a := by
      have := (List.perm_cons_erase he).count_eq a
      simp only [List.count_cons,List.count_nil] at *
      omega
    simp only [State.start,List.flatMap_append,List.flatMap_cons,List.flatMap_nil,putting,
      List.append_nil,List.count_append] at *
    omega

/-- An eraseblock in use that is not being moved nor in a tree is protected. -/
theorem in_queue (nd : pebs.Nodup) (h : Inv pebs st) {e : ℕ}
    (use : 0<st.held.count e+(st.threads.flatMap putting).count e)
    (hf : st.moveFrom≠some e) (ht : st.moveTo≠some e) (hu : e∉st.used.toList)
    (hs : e∉st.scrub.toList) (he : e∉st.erroneous.toList) : st.pq.flatten.count e=1 := by
  have := h.inUse e
  have := h.total e
  have := count_le_one nd e
  have := moved_le h e
  have := List.count_eq_zero.mpr hu
  have := List.count_eq_zero.mpr hs
  have := List.count_eq_zero.mpr he
  have : st.moveFrom.toList.count e=0 := List.count_eq_zero.mpr (by simpa using hf)
  have : st.moveTo.toList.count e=0 := List.count_eq_zero.mpr (by simpa using ht)
  omega

theorem queue_erase_length (st : State) (e : ℕ) :
    (protQueueDel st e).pq.length=st.pq.length := List.length_map _

theorem scrub_inv (nd : pebs.Nodup) (h : Inv pebs st) {e : ℕ} (hheld : e∈st.held)
    (ok : ubiWlScrubPeb cfg st e=some st') : Inv pebs st' := by
  have use := List.count_pos_iff.mpr hheld
  unfold ubiWlScrubPeb at ok
  split at ok
  · cases ok
    exact h
  next hfirst =>
  simp only [not_or] at hfirst
  have ⟨hfrom,hscrub,herr⟩ := hfirst
  have hs : e∉st.scrub.toList := fun k => hscrub ((inWlTree_iff h.scrub).mpr k)
  have he : e∉st.erroneous.toList := fun k => herr ((inWlTree_iff h.erroneous).mpr k)
  have hadd := count_add cfg.rb st.ec e st.scrub
  have hsort := sorted_add cfg.rb h.scrub hs
  split at ok
  · simp at ok
  next hto =>
  split at ok
  next hused =>
    cases ok
    have hu := (inWlTree_iff h.used).mp hused
    have hdel := count_erase cfg.rb h.used hu
    refine start_inv (t := .ensure) ?_ rfl rfl rfl
    refine { h with
      total := fun a => ?_, inUse := fun a => ?_, used := sorted_erase cfg.rb h.used hu,
      scrub := hsort }
    · have := h.total a
      have := hadd a
      have := hdel a
      dsimp only
      omega
    · have := h.inUse a
      have := hadd a
      have := hdel a
      dsimp only
      omega
  next hused =>
    cases ok
    have hu : e∉st.used.toList := fun k => hused ((inWlTree_iff h.used).mpr k)
    have hdel := count_slots_erase (in_queue nd h (by omega) hfrom hto hu hs he)
    refine start_inv (t := .ensure) ?_ rfl rfl rfl
    refine { h with
      total := fun a => ?_, inUse := fun a => ?_, scrub := hsort,
      queue := (queue_erase_length st e).trans h.queue }
    · have := h.total a
      have := hadd a
      have := hdel a
      dsimp only [protQueueDel]
      omega
    · have := h.inUse a
      have := hadd a
      have := hdel a
      dsimp only [protQueueDel]
      omega

/-- A put that takes the eraseblock out of its place. -/
theorem putTaken_inv (h : Inv pebs st) {torture torture' : Bool}
    (hi : st.threads[i]?=some (.put e torture)) (hec : st'.ec=st.ec) (hfree : st'.free=st.free)
    (hworks : st'.works=st.works) (hcount : st'.worksCount=st.worksCount)
    (hthreads : st'.threads=st.threads) (hfrom : st'.moveFrom=st.moveFrom)
    (hto : st'.moveTo=st.moveTo) (hput : st'.moveToPut=st.moveToPut) (hmover : st'.mover=st.mover)
    (hheld : st'.held=st.held) (hfreed : st'.freed=st.freed) (hpq : st'.pq.length=st.pq.length)
    (hhead : st'.pqHead=st.pqHead) (hused : Sorted st.ec st'.used) (hscrub : Sorted st.ec st'.scrub)
    (herr : Sorted st.ec st'.erroneous) (herrs : st'.erroneousPebCount=st'.erroneous.toList.length)
    (htaken : ∀ a,st'.used.toList.count a+st'.scrub.toList.count a+st'.erroneous.toList.count a+
      st'.pq.flatten.count a+[e].count a=st.used.toList.count a+st.scrub.toList.count a+
        st.erroneous.toList.count a+st.pq.flatten.count a) :
    Inv pebs (st'.goTo i (.putErase e torture')) := by
  have herase := count_set (y := .putErase e torture') erasing hi
  have hhands := count_set (y := .putErase e torture') putHands hi
  have hputs := count_set (y := .putErase e torture') putting hi
  constructor
  · intro a
    have := h.total a
    have := htaken a
    have := herase a
    have := hhands a
    simp only [State.goTo,hfree,hworks,hthreads,hfrom,hto,hmover,hfreed,erasing,putHands,
      List.count_nil] at *
    omega
  · intro a
    have := h.inUse a
    have := htaken a
    have := hputs a
    simp only [State.goTo,hthreads,hfrom,hput,hmover,hheld,putting,List.count_nil] at *
    omega
  · simp only [State.goTo,hec,hfree,h.free]
  · simp only [State.goTo,hec,hused]
  · simp only [State.goTo,hec,hscrub]
  · simp only [State.goTo,hec,herr]
  · simp only [State.goTo,hcount,hworks,h.works]
  · exact herrs
  · exact hpq.trans h.queue
  · simp only [State.goTo,hhead,h.head]
  · simp only [State.goTo,hfrom,hmover,h.source]
  · simp only [State.goTo,hto,hmover,h.target]
  · simp only [State.goTo,hput,hmover]
    exact h.targetPut

theorem putLocked_inv (nd : pebs.Nodup) (h : Inv pebs st)
    (hi : st.threads[i]?=some (.put e torture)) (ok : putLocked cfg st i e torture=some st') :
    Inv pebs st' := by
  have use : 0<(st.threads.flatMap putting).count e := by
    rw [List.count_pos_iff,List.mem_flatMap]
    exact ⟨_,List.mem_of_getElem? hi,List.mem_singleton_self e⟩
  unfold putLocked at ok
  split at ok
  · simp at ok
  next hfrom =>
  split at ok
  next hto =>
    cases ok
    have hputs := count_set (y := .done) putting hi
    have ⟨e1,hm⟩ : ∃ e1,st.mover=.copied e1 e := by
      have hone := h.total e
      have hle := count_le_one nd e
      have hin := h.inUse e
      have hcount : st.moveTo.toList.count e=1 := by simp [hto]
      have hm : 0<(movedInUse st.mover st.moveFrom st.moveToPut).count e := by omega
      have ht := h.target
      rw [hto] at ht
      unfold movedInUse at hm
      split at hm
      next e1 e2 hmm =>
        rw [hmm] at ht
        cases ht
        exact ⟨e1,hmm⟩
      · omega
    have hp : st.moveToPut=false := by
      cases hb : st.moveToPut with
      | false => rfl
      | true =>
        have hin := h.inUse e
        have hone := h.total e
        have hle := count_le_one nd e
        have hcount : st.moveTo.toList.count e=1 := by simp [hto]
        rw [hm,hb] at hin
        simp only [movedInUse,if_true,List.count_nil] at hin
        omega
    refine { h with total := fun a => ?_, inUse := fun a => ?_, targetPut := fun _ => ⟨e1,e,hm⟩ }
    · have := h.total a
      have := count_set (y := .done) erasing hi a
      have := count_set (y := .done) putHands hi a
      simp only [State.goTo,erasing,putHands] at *
      omega
    · have := h.inUse a
      have := hputs a
      simp only [State.goTo,putting,hm,hp,movedInUse,List.count_nil,if_true,
        Bool.false_eq_true,if_false] at *
      omega
  next hto =>
  split at ok
  next hin =>
    cases ok
    have hm := (inWlTree_iff h.used).mp hin
    refine putTaken_inv h hi rfl rfl rfl rfl rfl rfl rfl rfl rfl rfl rfl rfl rfl
      (sorted_erase cfg.rb h.used hm) h.scrub h.erroneous h.errors ?_
    intro a
    have := count_erase cfg.rb h.used hm a
    dsimp only
    omega
  next hu =>
  split at ok
  next hin =>
    cases ok
    have hm := (inWlTree_iff h.scrub).mp hin
    refine putTaken_inv h hi rfl rfl rfl rfl rfl rfl rfl rfl rfl rfl rfl rfl rfl
      h.used (sorted_erase cfg.rb h.scrub hm) h.erroneous h.errors ?_
    intro a
    have := count_erase cfg.rb h.scrub hm a
    dsimp only
    omega
  next hs =>
  split at ok
  next hin =>
    cases ok
    have hm := (inWlTree_iff h.erroneous).mp hin
    refine putTaken_inv h hi rfl rfl rfl rfl rfl rfl rfl rfl rfl rfl rfl rfl rfl
      h.used h.scrub (sorted_erase cfg.rb h.erroneous hm) ?_ ?_
    · have := length_erase cfg.rb h.erroneous hm
      have := h.errors
      dsimp only
      omega
    · intro a
      have := count_erase cfg.rb h.erroneous hm a
      dsimp only
      omega
  next he =>
    cases ok
    have hmu : e∉st.used.toList := fun k => hu ((inWlTree_iff h.used).mpr k)
    have hms : e∉st.scrub.toList := fun k => hs ((inWlTree_iff h.scrub).mpr k)
    have hme : e∉st.erroneous.toList := fun k => he ((inWlTree_iff h.erroneous).mpr k)
    have hq := in_queue nd h (by omega) hfrom hto hmu hms hme
    refine putTaken_inv h hi rfl rfl rfl rfl rfl rfl rfl rfl rfl rfl rfl (queue_erase_length st e) rfl
      h.used h.scrub h.erroneous h.errors ?_
    intro a
    have := count_slots_erase hq a
    dsimp only [protQueueDel]
    omega

theorem erase_inv (nd : pebs.Nodup) (h : Inv pebs st) (hi : st.threads[i]?=some (.erase e torture))
    (o : Outcome) :
    Inv pebs (eraseWorker st i e o) := by
  unfold eraseWorker
  have hpos : 0<(st.threads.flatMap erasing).count e := by
    rw [List.count_pos_iff,List.mem_flatMap]
    exact ⟨_,List.mem_of_getElem? hi,List.mem_singleton_self e⟩
  split
  next ec hok =>
    have hone := h.total e
    have hle := count_le_one nd e
    have out : ∀ l : List ℕ,l.count e=0 → e∉l := fun l hl => List.count_eq_zero.mp hl
    have hi' : ({ st with ec := Function.update st.ec e ec } : State).threads[i]?=
        some (.erase e torture) := hi
    refine goTo_inv ?_ hi' rfl rfl rfl
    exact ⟨h.total,h.inUse,sorted_update h.free (out _ (by omega)) ec,
      sorted_update h.used (out _ (by omega)) ec,sorted_update h.scrub (out _ (by omega)) ec,
      sorted_update h.erroneous (out _ (by omega)) ec,h.works,h.errors,h.queue,h.head,h.source,
      h.target,h.targetPut⟩
  next err hfail =>
    have given : ∀ t : Thread,erasing t=[] → putHands t=[] → putting t=[] →
        Inv pebs (({ st with freed := e::st.freed } : State).goTo i t) := by
      intro t he hp hq
      refine { h with total := fun a => ?_, inUse := fun a => ?_ }
      · have := h.total a
        have herase := count_set (y := t) erasing hi a
        have hhands := count_set (y := t) putHands hi a
        rw [he] at herase
        rw [hp] at hhands
        simp only [State.goTo,erasing,putHands,List.count_cons,List.count_nil] at herase hhands ⊢
        omega
      · have := h.inUse a
        have hput := count_set (y := t) putting hi a
        rw [hq] at hput
        simp only [State.goTo,putting] at hput ⊢
        omega
    split
    · exact given (.retry e) rfl rfl rfl
    · exact given .done rfl rfl rfl

theorem erased_inv (nd : pebs.Nodup) (h : Inv pebs st) (hi : st.threads[i]?=some (.erased e)) :
    Inv pebs ({ st with free := wlTreeAdd cfg.rb st.ec e st.free }.goTo i .serve) := by
  have hpos : 0<(st.threads.flatMap erasing).count e := by
    rw [List.count_pos_iff,List.mem_flatMap]
    exact ⟨_,List.mem_of_getElem? hi,List.mem_singleton_self e⟩
  have hone := h.total e
  have hle := count_le_one nd e
  have hout : e∉st.free.toList := List.count_eq_zero.mp (by omega)
  refine { h with
    total := fun a => ?_, inUse := fun a => ?_, free := sorted_add cfg.rb h.free hout }
  · have := h.total a
    have := count_set (y := .serve) erasing hi a
    have := count_set (y := .serve) putHands hi a
    have := count_add cfg.rb st.ec e st.free a
    simp only [State.goTo,erasing,putHands,List.count_nil] at *
    omega
  · have := h.inUse a
    have := count_set (y := .serve) putting hi a
    simp only [State.goTo,putting] at *
    omega

/-- The loop of `serve_prot_queue`. -/
theorem fold_add (rb : Rebalance) (ec : ℕ → ℤ) (l : List ℕ) {t : SearchTree.Tree ℕ} (ht : Sorted ec t)
    (once : ∀ a,t.toList.count a+l.count a≤1) :
    Sorted ec (l.foldl (fun t e => wlTreeAdd rb ec e t) t)∧
      ∀ a,(l.foldl (fun t e => wlTreeAdd rb ec e t) t).toList.count a=
        t.toList.count a+l.count a := by
  induction l generalizing t with
  | nil => exact ⟨ht,fun a => rfl⟩
  | cons e l ih =>
    have hout : e∉t.toList := by
      have := once e
      rw [List.count_cons_self] at this
      exact List.count_eq_zero.mp (by omega)
    have hcons : ∀ a,(e::l).count a=[e].count a+l.count a := by
      intro a
      simp only [List.count_cons,List.count_nil]
      omega
    have hone : ∀ a,(wlTreeAdd rb ec e t).toList.count a+l.count a≤1 := by
      intro a
      have := once a
      have := hcons a
      have := count_add rb ec e t a
      omega
    have ⟨hs,hc⟩ := ih (sorted_add rb ht hout) hone
    refine ⟨hs,fun a => ?_⟩
    have := hcons a
    have := count_add rb ec e t a
    have := hc a
    rw [List.foldl_cons]
    omega

theorem serve_inv (nd : pebs.Nodup) (h : Inv pebs st) {i : ℕ}
    (hi : st.threads[i]?=some .serve) : Inv pebs (serveProtQueue cfg st i) := by
  have hk : st.pqHead<st.pq.length := h.queue.symm▸h.head
  have htake : ∀ a,(st.pq.modify st.pqHead (·.drop SERVE_MAX)).flatten.count a+
      ((st.pq.getD st.pqHead []).take SERVE_MAX).count a=st.pq.flatten.count a := by
    intro a
    have := count_modify hk (·.drop SERVE_MAX) a
    have hsplit := congrArg (List.count a)
      (List.take_append_drop SERVE_MAX (st.pq.getD st.pqHead []))
    rw [List.count_append] at hsplit
    omega
  have ⟨hsort,hcount⟩ := fold_add cfg.rb st.ec ((st.pq.getD st.pqHead []).take SERVE_MAX) h.used
    (by
      intro a
      have := h.total a
      have := count_le_one nd a
      have := htake a
      omega)
  have moved : Inv pebs ({ st with
      used := ((st.pq.getD st.pqHead []).take SERVE_MAX).foldl
        (fun t e => wlTreeAdd cfg.rb st.ec e t) st.used
      pq := st.pq.modify st.pqHead (·.drop SERVE_MAX) } : State) := by
    refine { h with
      total := fun a => ?_, inUse := fun a => ?_, used := hsort,
      queue := (List.length_modify _ _ _).trans h.queue }
    · have := h.total a
      have := htake a
      have := hcount a
      dsimp only
      omega
    · have := h.inUse a
      have := htake a
      have := hcount a
      dsimp only
      omega
  unfold serveProtQueue
  dsimp only
  split
  · exact goTo_inv moved hi rfl rfl rfl
  · have hhead : (if st.pqHead+1=UBI_PROT_QUEUE_LEN then 0 else st.pqHead+1)<
        UBI_PROT_QUEUE_LEN := by
      have := h.head
      split <;> omega
    refine goTo_inv (t := .serve) ?_ hi rfl rfl rfl
    exact ⟨moved.total,moved.inUse,moved.free,moved.used,moved.scrub,moved.erroneous,moved.works,
      moved.errors,moved.queue,hhead,moved.source,moved.target,moved.targetPut⟩

/-- The flag of a scheduled work is not part of the places. -/
theorem scheduled_inv (h : Inv pebs st) (b : Bool) : Inv pebs { st with wlScheduled := b } :=
  ⟨h.total,h.inUse,h.free,h.used,h.scrub,h.erroneous,h.works,h.errors,h.queue,h.head,h.source,
    h.target,h.targetPut⟩

theorem ensureWork_inv (h : Inv pebs st) {i : ℕ} (hi : st.threads[i]?=some .ensureWork) :
    Inv pebs ((scheduleUbiWork st .wearLeveling).goTo i .done) := by
  refine goTo_inv (t := .ensureWork) ?_ hi rfl rfl rfl
  have hw := h.works
  refine { h with total := fun a => ?_, works := ?_ }
  · have := h.total a
    simp only [scheduleUbiWork,List.flatMap_append,List.flatMap_cons,List.flatMap_nil,workPebs,
      List.append_nil]
    omega
  · simp only [scheduleUbiWork,List.length_append,List.length_cons,List.length_nil]
    omega

theorem scheduled_works (st : State) (w : Work) (a : ℕ) :
    ((scheduleUbiWork st w).works.flatMap workPebs).count a=
      (st.works.flatMap workPebs).count a+(workPebs w).count a := by
  simp [scheduleUbiWork]

theorem scheduled_count (h : Inv pebs st) (w : Work) :
    (scheduleUbiWork st w).worksCount=(scheduleUbiWork st w).works.length := by
  have := h.works
  simp only [scheduleUbiWork,List.length_append,List.length_cons,List.length_nil]
  omega

theorem putErase_inv (h : Inv pebs st) (hi : st.threads[i]?=some (.putErase e torture)) :
    Inv pebs ((scheduleUbiWork st (.erase e torture)).goTo i .done) := by
  refine { h with total := fun a => ?_, inUse := fun a => ?_, works := scheduled_count h _ }
  · have := h.total a
    have herase := count_set (y := .done) erasing hi a
    have hhands := count_set (y := .done) putHands hi a
    have hworks := scheduled_works st (.erase e torture) a
    simp only [State.goTo,scheduleUbiWork,erasing,putHands,workPebs,List.count_nil] at *
    omega
  · have := h.inUse a
    have hput := count_set (y := .done) putting hi a
    simp only [State.goTo,scheduleUbiWork,putting] at *
    omega

/-- An eraseblock that could not be put goes to the used tree. -/
theorem putBack_inv (nd : pebs.Nodup) (h : Inv pebs st) (hi : st.threads[i]?=some (.putBack e))
    (keep : Bool) :
    Inv pebs ({ st with
      used := wlTreeAdd cfg.rb st.ec e st.used
      held := if keep then e::st.held else st.held }.goTo i .done) := by
  have hpos : 0<(st.threads.flatMap putHands).count e := by
    rw [List.count_pos_iff,List.mem_flatMap]
    exact ⟨_,List.mem_of_getElem? hi,List.mem_singleton_self e⟩
  have hone := h.total e
  have hle := count_le_one nd e
  have hout : e∉st.used.toList := List.count_eq_zero.mp (by omega)
  refine { h with
    total := fun a => ?_, inUse := fun a => ?_, used := sorted_add cfg.rb h.used hout }
  · have := h.total a
    have herase := count_set (y := .done) erasing hi a
    have hhands := count_set (y := .done) putHands hi a
    have hadd := count_add cfg.rb st.ec e st.used a
    simp only [State.goTo,erasing,putHands,List.count_nil] at *
    omega
  · have := h.inUse a
    have hput := count_set (y := .done) putting hi a
    have hadd := count_add cfg.rb st.ec e st.used a
    have hheld : (if keep then e::st.held else st.held).count a≤ st.held.count a+[e].count a := by
      split
      · simp only [List.count_cons,List.count_nil]
        omega
      · omega
    simp only [State.goTo,putting] at *
    omega

/-! ## Moves -/

theorem not_put (h : Inv pebs st) (hm : ∀ e1 e2,st.mover≠.copied e1 e2) :
    st.moveToPut=false := by
  cases hb : st.moveToPut with
  | false => rfl
  | true =>
    have ⟨e1,e2,hx⟩ := h.targetPut hb
    exact absurd hx (hm e1 e2)

theorem pickMove_mem (h : pickMove cfg st=some (e1,e2,scrubbing)) :
    e2∈st.free.toList∧e1∈(if scrubbing then st.scrub else st.used).toList := by
  unfold pickMove at h
  split at h
  · simp at h
  · simp at h
  next x2 x1 hfree hscrub hused =>
    split at h
    · cases h
      exact ⟨findWlEntry_mem hfree,Tree.first_mem hused⟩
    · simp at h
  next x2 x1 other hfree hscrub =>
    cases h
    exact ⟨findWlEntry_mem hfree,Tree.first_mem hscrub⟩

theorem moveStart_inv (h : Inv pebs st) {i : ℕ} {o : Outcome}
    (hi : st.threads[i]?=some .move) (ok : wearLevelingStart cfg st i o=some st') :
    Inv pebs st' := by
  unfold wearLevelingStart at ok
  split at ok
  · cases ok
    exact goTo_inv h hi rfl rfl rfl
  split at ok
  · simp at ok
  next hmutex =>
  have hidle : st.mover=.idle := not_not.mp hmutex
  have hfrom := h.source
  have hto := h.target
  rw [hidle] at hfrom hto
  simp only [moving,Option.map_none] at hfrom hto
  have hput := not_put h (by simp [hidle])
  split at ok
  · cases ok
    exact goTo_inv (scheduled_inv h false) hi rfl rfl rfl
  next e1 e2 scrubbing hpick =>
  have ⟨hm2,hm1⟩ := pickMove_mem hpick
  have hdel2 := count_erase cfg.rb h.free hm2
  cases scrubbing with
  | true =>
    cases ok
    have hdel1 := count_erase cfg.rb h.scrub hm1
    refine goTo_inv (t := .move) ?_ hi rfl rfl rfl
    refine { h with
      total := fun a => ?_, inUse := fun a => ?_, free := sorted_erase cfg.rb h.free hm2,
      scrub := sorted_erase cfg.rb h.scrub hm1, source := rfl, target := rfl, targetPut := ?_ }
    · have := h.total a
      have := hdel1 a
      have := hdel2 a
      simp only [hidle,hfrom,hto,moverHands,Option.toList_none,Option.toList_some,List.count_nil,
        if_true] at *
      omega
    · have := h.inUse a
      have := hdel1 a
      simp only [hidle,hfrom,movedInUse,Option.toList_none,Option.toList_some,List.count_nil,
        if_true] at *
      omega
    · intro hb
      rw [hput] at hb
      cases hb
  | false =>
    cases ok
    have hdel1 := count_erase cfg.rb h.used hm1
    refine goTo_inv (t := .move) ?_ hi rfl rfl rfl
    refine { h with
      total := fun a => ?_, inUse := fun a => ?_, free := sorted_erase cfg.rb h.free hm2,
      used := sorted_erase cfg.rb h.used hm1, source := rfl, target := rfl, targetPut := ?_ }
    · have := h.total a
      have := hdel1 a
      have := hdel2 a
      simp only [hidle,hfrom,hto,moverHands,Option.toList_none,Option.toList_some,List.count_nil,
        Bool.false_eq_true,if_false] at *
      omega
    · have := h.inUse a
      have := hdel1 a
      simp only [hidle,hfrom,movedInUse,Option.toList_none,Option.toList_some,List.count_nil,
        Bool.false_eq_true,if_false] at *
      omega
    · intro hb
      rw [hput] at hb
      cases hb

/-- The copy of an eraseblock ends. -/
theorem copyEnd_inv (h : Inv pebs st) (hm : st.mover=.copy e1 e2 scrubbing) {m : Mover}
    (hmove : moving m=some (e1,e2)) (hhands : moverHands m=[])
    (huse : movedInUse m st.moveFrom st.moveToPut=st.moveFrom.toList) :
    Inv pebs { st with mover := m } := by
  have hput := not_put h (by simp [hm])
  have hfrom := h.source
  have hto := h.target
  rw [hm] at hfrom hto
  refine { h with
    total := fun a => ?_, inUse := fun a => ?_, source := ?_, target := ?_, targetPut := ?_ }
  · have := h.total a
    simp only [hm,moverHands] at this
    rw [hhands]
    exact this
  · have := h.inUse a
    simp only [hm,movedInUse] at this
    rw [huse]
    exact this
  · rw [hmove]
    exact hfrom
  · rw [hmove]
    exact hto
  · intro hb
    rw [hput] at hb
    cases hb

/-- `ubi_eba_copy_leb` mapped the target. -/
theorem copyDone_inv (h : Inv pebs st) (hm : st.mover=.copy e1 e2 scrubbing) (hheld : e1∈st.held) :
    Inv pebs { st with mover := .copied e1 e2, held := e2::st.held.erase e1 } := by
  have hput := not_put h (by simp [hm])
  have hfrom := h.source
  have hto := h.target
  rw [hm] at hfrom hto
  simp only [moving,Option.map_some] at hfrom hto
  refine { h with
    total := fun a => ?_, inUse := fun a => ?_, source := hfrom, target := hto,
    targetPut := fun _ => ⟨e1,e2,rfl⟩ }
  · have := h.total a
    simp only [hm,moverHands] at *
    omega
  · have := h.inUse a
    have hc := (List.perm_cons_erase hheld).count_eq a
    simp only [hm,hfrom,hput,movedInUse,Option.toList_some,List.count_cons,List.count_nil,
      Bool.false_eq_true,if_false] at *
    omega

/-- The target of a move goes to the used tree, or is about to be erased. -/
theorem copied_inv (nd : pebs.Nodup) (h : Inv pebs st) (hm : st.mover=.copied e1 e2) :
    Inv pebs { st with
      used := if st.moveToPut then st.used else wlTreeAdd cfg.rb st.ec e2 st.used
      moveFrom := none
      moveTo := none
      moveToPut := false
      wlScheduled := false
      mover := .eraseSource e1 (if st.moveToPut then some e2 else none) } := by
  have hfrom := h.source
  have hto := h.target
  rw [hm] at hfrom hto
  simp only [moving,Option.map_some] at hfrom hto
  have hone := h.total e2
  have hle := count_le_one nd e2
  have hcount : st.moveTo.toList.count e2=1 := by simp [hto]
  have hout : e2∉st.used.toList := List.count_eq_zero.mp (by omega)
  have hadd := count_add cfg.rb st.ec e2 st.used
  cases hput : st.moveToPut with
  | true =>
    simp only [if_true]
    refine { h with
      total := fun a => ?_, inUse := fun a => ?_, source := rfl, target := rfl,
      targetPut := fun hb => absurd hb (by simp) }
    · have := h.total a
      simp only [hm,hfrom,hto,moverHands,Option.toList_none,Option.toList_some,List.count_cons,
        List.count_nil] at *
      omega
    · have := h.inUse a
      simp only [hm,hput,movedInUse,if_true,Option.toList_none,List.count_nil] at *
      omega
  | false =>
    simp only [Bool.false_eq_true,if_false]
    refine { h with
      total := fun a => ?_, inUse := fun a => ?_, used := sorted_add cfg.rb h.used hout,
      source := rfl, target := rfl, targetPut := fun hb => absurd hb (by simp) }
    · have := h.total a
      have := hadd a
      simp only [hm,hfrom,hto,moverHands,Option.toList_none,Option.toList_some,List.count_nil] at *
      omega
    · have := h.inUse a
      have := hadd a
      simp only [hm,hput,movedInUse,Bool.false_eq_true,if_false,Option.toList_none,
        List.count_nil] at *
      omega

/-- The places after the label `out_not_moved`. -/
theorem notMoved_inv (nd : pebs.Nodup) (h : Inv pebs st)
    {protect scrubbing erroneous torture : Bool}
    (hm : st.mover=.notMoved e1 e2 protect scrubbing erroneous torture) :
    Inv pebs { putSourceBack cfg st e1 protect scrubbing erroneous with
      moveFrom := none
      moveTo := none
      wlScheduled := false
      mover := .eraseTarget e2 torture } := by
  have hput := not_put h (by simp [hm])
  have hfrom := h.source
  have hto := h.target
  rw [hm] at hfrom hto
  simp only [moving,Option.map_some] at hfrom hto
  have hone := h.total e1
  have hle := count_le_one nd e1
  have hcount : st.moveFrom.toList.count e1=1 := by simp [hfrom]
  have out : ∀ t : SearchTree.Tree ℕ,t.toList.count e1=0 → e1∉t.toList := fun t ht => List.count_eq_zero.mp ht
  have total : ∀ a,st.free.toList.count a+st.used.toList.count a+st.scrub.toList.count a+
      st.erroneous.toList.count a+st.pq.flatten.count a+(st.works.flatMap workPebs).count a+
      (st.threads.flatMap erasing).count a+[e1].count a+[e2].count a+
      (st.threads.flatMap putHands).count a+st.freed.count a=pebs.count a := by
    intro a
    have := h.total a
    simp only [hm,hfrom,hto,moverHands,Option.toList_some,List.count_nil] at this
    omega
  have inUse : ∀ a,st.held.count a+(st.threads.flatMap putting).count a≤
      st.used.toList.count a+st.scrub.toList.count a+st.erroneous.toList.count a+
        st.pq.flatten.count a+[e1].count a := by
    intro a
    have := h.inUse a
    simpa only [hm,hfrom,movedInUse,Option.toList_some] using this
  unfold putSourceBack
  split
  · refine { h with
      total := fun a => ?_, inUse := fun a => ?_, queue := (List.length_modify _ _ _).trans h.queue,
      source := rfl, target := rfl, targetPut := fun hb => absurd (hput.symm.trans hb) (by simp) }
    · have := total a
      have := count_protQueueAdd h e1 a
      simp only [protQueueAdd,moverHands,Option.toList_none,List.count_nil] at *
      omega
    · have := inUse a
      have := count_protQueueAdd h e1 a
      simp only [protQueueAdd,movedInUse,Option.toList_none,List.count_nil] at *
      omega
  split
  · refine { h with
      total := fun a => ?_, inUse := fun a => ?_,
      erroneous := sorted_add cfg.rb h.erroneous (out _ (by omega)), errors := ?_, source := rfl,
      target := rfl, targetPut := fun hb => absurd (hput.symm.trans hb) (by simp) }
    · have := total a
      have := count_add cfg.rb st.ec e1 st.erroneous a
      simp only [moverHands,Option.toList_none,List.count_nil] at *
      omega
    · have := inUse a
      have := count_add cfg.rb st.ec e1 st.erroneous a
      simp only [movedInUse,Option.toList_none,List.count_nil] at *
      omega
    · have := length_add cfg.rb st.ec e1 st.erroneous
      have := h.errors
      dsimp only
      omega
  split
  · refine { h with
      total := fun a => ?_, inUse := fun a => ?_,
      scrub := sorted_add cfg.rb h.scrub (out _ (by omega)), source := rfl, target := rfl,
      targetPut := fun hb => absurd (hput.symm.trans hb) (by simp) }
    · have := total a
      have := count_add cfg.rb st.ec e1 st.scrub a
      simp only [moverHands,Option.toList_none,List.count_nil] at *
      omega
    · have := inUse a
      have := count_add cfg.rb st.ec e1 st.scrub a
      simp only [movedInUse,Option.toList_none,List.count_nil] at *
      omega
  · refine { h with
      total := fun a => ?_, inUse := fun a => ?_,
      used := sorted_add cfg.rb h.used (out _ (by omega)), source := rfl, target := rfl,
      targetPut := fun hb => absurd (hput.symm.trans hb) (by simp) }
    · have := total a
      have := count_add cfg.rb st.ec e1 st.used a
      simp only [moverHands,Option.toList_none,List.count_nil] at *
      omega
    · have := inUse a
      have := count_add cfg.rb st.ec e1 st.used a
      simp only [movedInUse,Option.toList_none,List.count_nil] at *
      omega

/-- A failed move whose source nobody uses. -/
theorem failed_inv (h : Inv pebs st) (hm : st.mover=.failed e1 e2)
    (hout : e1∉st.held++st.threads.flatMap putting) :
    Inv pebs { st with
      moveFrom := none
      moveTo := none
      moveToPut := false
      wlScheduled := false
      mover := .idle
      freed := e1::e2::st.freed } := by
  have hfrom := h.source
  have hto := h.target
  rw [hm] at hfrom hto
  simp only [moving,Option.map_some] at hfrom hto
  have hz := List.count_eq_zero.mpr hout
  rw [List.count_append] at hz
  refine { h with
    total := fun a => ?_, inUse := fun a => ?_, source := rfl, target := rfl,
    targetPut := fun hb => absurd hb (by simp) }
  · have := h.total a
    simp only [hm,hfrom,hto,moverHands,Option.toList_none,Option.toList_some,List.count_cons,
      List.count_nil] at *
    omega
  · have := h.inUse a
    simp only [hm,hfrom,movedInUse,Option.toList_none,Option.toList_some,List.count_nil] at *
    by_cases ha : a=e1
    · subst ha
      omega
    · have : [e1].count a=0 := by simp [Ne.symm ha]
      omega

/-- The worker releases `move_mutex`, or goes on to the target, after it
scheduled an erasure or gave entries back. -/
theorem moverErase_inv (h : Inv pebs st) (hm : moving st.mover=none) {m : Mover}
    (hm' : moving m=none) {works : List Work} {count : ℤ} {freed : List ℕ}
    (hworks : count=works.length)
    (hcount : ∀ a,(works.flatMap workPebs).count a+(moverHands m).count a+freed.count a=
      (st.works.flatMap workPebs).count a+(moverHands st.mover).count a+st.freed.count a) :
    Inv pebs { st with works := works, worksCount := count, mover := m, freed := freed } := by
  have hput := not_put h (by
    intro e1 e2 hc
    rw [hc] at hm
    cases hm)
  have hfrom := h.source
  have hto := h.target
  rw [hm] at hfrom hto
  have hinUse : ∀ m : Mover,moving m=none → movedInUse m st.moveFrom st.moveToPut=[] := by
    intro m hm
    unfold movedInUse
    split
    · cases hm
    · simp [hfrom]
  refine { h with
    total := fun a => ?_, inUse := fun a => ?_, works := hworks, source := ?_, target := ?_,
    targetPut := fun hb => absurd (hput.symm.trans hb) (by simp) }
  · have := h.total a
    have := hcount a
    dsimp only
    omega
  · have := h.inUse a
    rw [hinUse _ hm] at this
    rw [hinUse _ hm']
    exact this
  · rw [hm']
    exact hfrom
  · rw [hm']
    exact hto

theorem moveResult_moving (cfg : Config) (st : State) (e1 e2 : ℕ) (scrubbing : Bool) (o : Outcome) :
    moving (moveResult cfg st e1 e2 scrubbing o)=some (e1,e2)∧
      moverHands (moveResult cfg st e1 e2 scrubbing o)=[]∧
      (∀ x1 x2,moveResult cfg st e1 e2 scrubbing o=.copied x1 x2 → x1=e1∧x2=e2) := by
  unfold moveResult
  split <;> try exact ⟨rfl,rfl,by simp⟩
  split <;> try exact ⟨rfl,rfl,by simp⟩
  split <;> exact ⟨rfl,rfl,by simp⟩

theorem moverStep_inv (nd : pebs.Nodup) (h : Inv pebs st) {o : Outcome}
    (harm : harmless st (.mover o)=true) (ok : moverStep cfg st o=some st') :
    Inv pebs st' := by
  unfold moverStep at ok
  split at ok
  · simp at ok
  next e1 e2 scrubbing hm =>
    have ⟨hmove,hhands,hsame⟩ := moveResult_moving cfg st e1 e2 scrubbing o
    split at ok
    next x1 x2 hres =>
      have ⟨h1,h2⟩ := hsame x1 x2 hres
      subst h1 h2
      split at ok
      next hheld =>
        cases ok
        exact copyDone_inv h hm hheld
      · simp at ok
    next m hnot =>
      cases ok
      refine copyEnd_inv h hm hmove hhands ?_
      unfold movedInUse
      split
      next x1 x2 hx => exact absurd hx (hnot x1 x2)
      · rfl
  next e1 e2 hm =>
    cases ok
    exact copied_inv nd h hm
  next e1 e2 protect scrubbing erroneous torture hm =>
    cases ok
    exact notMoved_inv nd h hm
  next e1 e2 hm =>
    cases ok
    simp only [harmless,hm,decide_eq_true_eq] at harm
    exact failed_inv h hm harm
  next e1 e2 hm =>
    have hnone : moving st.mover=none := by rw [hm]; rfl
    unfold scheduleErase at ok
    by_cases hmem : o.mem=true
    · rw [if_pos hmem] at ok
      cases e2 with
      | none =>
        cases ok
        refine moverErase_inv (m := .idle) h hnone rfl (scheduled_count h _) fun a => ?_
        rw [scheduled_works,hm]
        simp [moverHands,workPebs,scheduleUbiWork]
      | some e2 =>
        cases ok
        refine moverErase_inv (m := .eraseTarget e2 false) h hnone rfl (scheduled_count h _)
          fun a => ?_
        rw [scheduled_works,hm]
        simp only [moverHands,workPebs,scheduleUbiWork,Option.toList_some,List.count_cons,
          List.count_nil]
        omega
    · rw [if_neg hmem] at ok
      cases ok
      refine moverErase_inv (m := .idle) h hnone rfl h.works fun a => ?_
      rw [hm]
      simp only [moverHands,List.count_cons,List.count_nil,List.count_append]
      omega
  next e2 torture hm =>
    have hnone : moving st.mover=none := by rw [hm]; rfl
    unfold scheduleErase at ok
    by_cases hmem : o.mem=true
    · rw [if_pos hmem] at ok
      cases ok
      refine moverErase_inv (m := .idle) h hnone rfl (scheduled_count h _) fun a => ?_
      rw [scheduled_works,hm]
      simp [moverHands,workPebs,scheduleUbiWork]
    · rw [if_neg hmem] at ok
      cases ok
      refine moverErase_inv (m := .idle) h hnone rfl h.works fun a => ?_
      rw [hm]
      simp only [moverHands,List.count_cons,List.count_nil]
      omega

theorem thread_at {i : ℕ} {t : Thread} (h : st.threads.getD i .done=t) (hne : t≠.done) :
    st.threads[i]?=some t := by
  rw [List.getD_eq_getElem?_getD] at h
  cases hi : st.threads[i]? with
  | none =>
    rw [hi] at h
    exact absurd h.symm hne
  | some x =>
    rw [hi] at h
    exact congrArg some h

theorem threadStep_inv (nd : pebs.Nodup) (h : Inv pebs st) {i : ℕ} {o : Outcome}
    (harm : harmless st (.thread i o)=true) (ok : threadStep cfg st i o=some st') :
    Inv pebs st' := by
  unfold threadStep at ok
  split at ok
  · simp at ok
  next e torture ht =>
    cases ok
    exact erase_inv nd h (thread_at ht (by simp)) o
  next e ht =>
    cases ok
    exact erased_inv nd h (thread_at ht (by simp))
  next e ht =>
    simp only [harmless,ht,Bool.not_eq_true'] at harm
    rw [scheduleErase,harm] at ok
    cases ok
    exact goTo_inv h (thread_at ht (by simp)) rfl rfl rfl
  next ht =>
    cases ok
    exact serve_inv nd h (thread_at ht (by simp))
  next ht =>
    have hi := thread_at ht (by simp)
    split at ok
    · cases ok
      exact goTo_inv (scheduled_inv h true) hi rfl rfl rfl
    · cases ok
      exact goTo_inv h hi rfl rfl rfl
  next ht =>
    have hi := thread_at ht (by simp)
    split at ok
    · cases ok
      exact ensureWork_inv h hi
    · cases ok
      exact goTo_inv (scheduled_inv h false) hi rfl rfl rfl
  next ht => exact moveStart_inv h (thread_at ht (by simp)) ok
  next e torture ht => exact putLocked_inv nd h (thread_at ht (by simp)) ok
  next e torture ht =>
    have hi := thread_at ht (by simp)
    unfold scheduleErase at ok
    by_cases hmem : o.mem=true
    · rw [if_pos hmem] at ok
      cases ok
      exact putErase_inv h hi
    · rw [if_neg hmem] at ok
      cases ok
      exact goTo_inv h hi rfl rfl rfl
  next e ht =>
    cases ok
    exact putBack_inv nd h (thread_at ht (by simp)) o.keep

/-- What one step keeps. -/
theorem step_inv (nd : pebs.Nodup) (h : Inv pebs st) {ev : Event} (harm : harmless st ev=true)
    (ok : step cfg st ev=some st') : Inv pebs st' := by
  cases ev with
  | get dtype =>
    have ⟨⟨x,e⟩,hx,hs⟩ := Option.map_eq_some_iff.mp ok
    cases hs
    exact get_inv h hx
  | work => exact work_inv h ok
  | put e torture =>
    simp only [step] at ok
    split at ok
    next he =>
      cases ok
      exact put_inv h he
    · simp at ok
  | scrub e =>
    simp only [step] at ok
    split at ok
    next he => exact scrub_inv nd h he ok
    · simp at ok
  | mover o => exact moverStep_inv nd h harm ok
  | thread i o => exact threadStep_inv nd h harm ok

end

/-! ## The start -/

/-- The eraseblocks that get an entry. -/
def scannedPebs (si : ScanInfo) : List ℕ :=
  (si.free++volumeLebs si++si.erase).map ScanLeb.pnum

theorem fillTree_spec (cfg : Config) (si : ScanInfo) (lebs : List ScanLeb)
    (once : ∀ a,(lebs.map ScanLeb.pnum).count a≤1) :
    Sorted (scannedEc si) (fillTree cfg si lebs)∧
      ∀ a,(fillTree cfg si lebs).toList.count a=(lebs.map ScanLeb.pnum).count a := by
  have ⟨hs,hc⟩ := fold_add cfg.rb (scannedEc si) (lebs.map ScanLeb.pnum) (t := .nil)
    List.Pairwise.nil (by
      intro a
      have := once a
      simp only [Tree.toList,List.count_nil]
      omega)
  rw [List.foldl_map] at hs hc
  refine ⟨hs,fun a => ?_⟩
  have := hc a
  simp only [Tree.toList,List.count_nil,Nat.zero_add] at this
  exact this

theorem count_filter_split (l : List ScanLeb) (a : ℕ) :
    ((l.filter fun seb => !seb.scrub).map ScanLeb.pnum).count a+
      ((l.filter fun seb => seb.scrub).map ScanLeb.pnum).count a=
        (l.map ScanLeb.pnum).count a := by
  have h := ((List.filter_append_perm (fun seb : ScanLeb => seb.scrub) l).map
    ScanLeb.pnum).count_eq a
  rw [List.map_append,List.count_append] at h
  omega

theorem works_pebs (l : List ScanLeb) :
    (l.map fun seb => Work.erase seb.pnum false).flatMap workPebs=l.map ScanLeb.pnum := by
  induction l with
  | nil => rfl
  | cons seb l ih =>
    rw [List.map_cons,List.flatMap_cons,ih]
    rfl

/-- What a scan of distinct eraseblocks leads to. -/
theorem init_inv (cfg : Config) {si : ScanInfo} (nd : (scannedPebs si).Nodup) :
    Inv (scannedPebs si) (ubiWlInitScan cfg si) := by
  have once : ∀ a,(si.free.map ScanLeb.pnum).count a+((volumeLebs si).map ScanLeb.pnum).count a+
      (si.erase.map ScanLeb.pnum).count a=(scannedPebs si).count a := by
    intro a
    simp only [scannedPebs,List.map_append,List.count_append]
  have le := fun a => List.nodup_iff_count_le_one.mp nd a
  have hsplit := count_filter_split (volumeLebs si)
  have ⟨hfs,hfc⟩ := fillTree_spec cfg si si.free (fun a => by
    have := once a
    have := le a
    omega)
  have ⟨hus,huc⟩ := fillTree_spec cfg si ((volumeLebs si).filter fun seb => !seb.scrub)
    (fun a => by
      have := once a
      have := le a
      have := hsplit a
      omega)
  have ⟨hss,hsc⟩ := fillTree_spec cfg si ((volumeLebs si).filter fun seb => seb.scrub)
    (fun a => by
      have := once a
      have := le a
      have := hsplit a
      omega)
  have hpq : (List.replicate UBI_PROT_QUEUE_LEN ([] : List ℕ)).flatten=[] := by simp
  constructor
  · intro a
    have := once a
    have := hsplit a
    have := hfc a
    have := huc a
    have := hsc a
    simp only [ubiWlInitScan,Tree.toList,hpq,works_pebs,List.flatMap_cons,List.flatMap_nil,erasing,
      putHands,moverHands,List.append_nil,Option.toList_none,List.count_nil]
    omega
  · intro a
    have := hsplit a
    have := huc a
    have := hsc a
    simp only [ubiWlInitScan,Tree.toList,hpq,List.flatMap_cons,List.flatMap_nil,putting,
      movedInUse,List.append_nil,Option.toList_none,List.count_nil]
    omega
  · exact hfs
  · exact hus
  · exact hss
  · exact List.Pairwise.nil
  · simp [ubiWlInitScan]
  · rfl
  · rfl
  · exact Nat.zero_lt_succ _
  · rfl
  · rfl
  · exact fun hb => absurd hb (by simp [ubiWlInitScan])

end ArdroneKernel.UbiWlPlaces
