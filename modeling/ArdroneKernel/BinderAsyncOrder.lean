import ArdroneKernel.BinderAsync
import ArdroneKernel.Execution
import Mathlib.Algebra.Order.Ring.Nat
import Mathlib.Data.List.Nodup

/-!
# One-way calls come in order

For each node of the process there is at most one call that was accepted and is
neither on the list of the node nor given back. The calls come in the order in
which they were accepted, until a thread exits with one on its list.
-/

namespace ArdroneKernel.BinderAsync

open Execution Function

/-! ## Lists that share nothing -/

section

variable {ι α : Type} {f g : ι → List α}

/-- Nothing is on the lists more than once. -/
structure Spread (f : ι → List α) : Prop where
  /-- Nothing is twice on one of them. -/
  nodup : ∀ i,(f i).Nodup
  /-- Nothing is on two of them. -/
  apart : ∀ {i j a},a∈f i → a∈f j → i=j

theorem Spread.sub (h : Spread f) (hs : ∀ i,(g i).Sublist (f i)) : Spread g where
  nodup i := (h.nodup i).sublist (hs i)
  apart hi hj := h.apart ((hs _).subset hi) ((hs _).subset hj)

theorem Spread.add [DecidableEq ι] (h : Spread f) (i : ι) {a : α} (ha : ∀ j,a∉f j)
    (hg : ∀ j,g j=if j=i then f j++[a] else f j) : Spread g := by
  have hmem : ∀ j b,b∈g j → b∈f j∨j=i∧b=a := by
    intro j b hb
    rw [hg] at hb
    split at hb
    · next hj => simpa [hj] using hb
    · exact .inl hb
  constructor
  · intro j
    rw [hg]
    split
    · refine (h.nodup j).append (List.nodup_singleton a) ?_
      exact List.disjoint_singleton.mpr (ha j)
    · exact h.nodup j
  · intro j k b hj hk
    rcases hmem j b hj with hj|⟨rfl,rfl⟩ <;> rcases hmem k b hk with hk|⟨rfl,hk⟩
    · exact h.apart hj hk
    · exact absurd (hk▸hj) (ha j)
    · exact absurd hk (ha k)
    · rfl

end

/-! ## The calls to one node -/

/-- The transaction is a one-way call to a node. -/
def Transaction.goesTo (n : ℕ) (t : Transaction) : Bool := t.oneWay&&t.targetNode==some n

/-- The transactions among some works. -/
def transactions (works : List Work) : List Transaction :=
  works.filterMap fun w => match w with
    | .transaction t => some t
    | _ => none

/-- What can be seen of the calls to a node. -/
@[ext]
structure View where
  /-- The calls on each list of works. -/
  todo : Todo → List Transaction
  /-- The buffers that were read and are not given back. -/
  unfreed : ℕ → Prop
  /-- The node. -/
  node : Node
  /-- The calls that were accepted. -/
  accepted : List ℕ
  /-- The calls that were read. -/
  delivered : List ℕ

/-- What can be seen of the calls to a node of the process. -/
def Proc.view (p : Proc) (n : ℕ) : View where
  todo l := (transactions (p.works l)).filter (·.goesTo n)
  unfreed a := p.buffers a=some ⟨true,some n,true⟩
  node := p.nodes n
  accepted := p.accepted n
  delivered := p.delivered n

/-- The call that is neither on the list of the node nor given back. -/
inductive Out where
  /-- There is none. -/
  | idle
  /-- It waits on a list. -/
  | queued (l : Todo) (t : Transaction)
  /-- It was read into a buffer. -/
  | held (a : ℕ)

/-- The calls on a list. -/
def Out.todo : Out → Todo → List Transaction
  | .queued l t,l' => if l'=l then [t] else []
  | _,_ => []

/-- The call, when it has not been read. -/
def Out.waiting : Out → List Transaction
  | .queued _ t => [t]
  | _ => []

/-- The calls to a node are in step with its flag and its list. -/
structure Phase (v : View) (o : Out) : Prop where
  /-- No other call is on a list of works. -/
  todo : ∀ l,v.todo l=o.todo l
  /-- No other call is in a buffer. -/
  unfreed : ∀ a,v.unfreed a ↔ o=.held a
  /-- The flag tells whether there is one. -/
  flag : v.node.hasAsyncTransaction=true ↔ o≠.idle
  /-- Without one nothing waits. -/
  idle : o=.idle → v.node.asyncTodo=[]
  /-- All calls come in order. -/
  order : v.accepted=v.delivered++(o.waiting++v.node.asyncTodo).map Transaction.debugId

/-- A call to an idle node goes to the process. -/
theorem Phase.accept_first {v : View} {t : Transaction} (h : Phase v .idle) :
    Phase { v with
      todo := fun l => if l=.proc then v.todo l++[t] else v.todo l
      node := ⟨true,v.node.asyncTodo⟩, accepted := v.accepted++[t.debugId] }
      (.queued .proc t) where
  todo l := by
    dsimp only
    rw [h.todo]
    rfl
  unfreed a := (h.unfreed a).trans (iff_of_false nofun nofun)
  flag := iff_of_true rfl nofun
  idle := nofun
  order := by
    have ho := h.order
    rw [h.idle rfl] at ho ⊢
    rw [ho]
    simp [Out.waiting]

/-- A call to another one goes to the list of the node. -/
theorem Phase.accept_next {v : View} {o : Out} {t : Transaction} (h : Phase v o)
    (ho : o≠.idle) : Phase { v with
      node := ⟨v.node.hasAsyncTransaction,v.node.asyncTodo++[t]⟩
      accepted := v.accepted++[t.debugId] } o where
  todo := h.todo
  unfreed := h.unfreed
  flag := h.flag
  idle hi := absurd hi ho
  order := by
    rw [h.order]
    simp

/-- A call is read. -/
theorem Phase.deliver {v : View} {l : Todo} {t : Transaction} (h : Phase v (.queued l t)) :
    Phase { v with
      todo := fun l' => if l'=l then [] else v.todo l'
      unfreed := fun a => a=t.buffer∨v.unfreed a
      delivered := v.delivered++[t.debugId] } (.held t.buffer) where
  todo l' := by
    dsimp only
    rw [h.todo]
    split
    · rfl
    · next hl => exact if_neg hl
  unfreed a := by
    have hu := h.unfreed a
    simp only [reduceCtorEq,iff_false] at hu
    dsimp only
    rw [or_iff_left hu,Out.held.injEq]
    exact eq_comm
  flag := iff_of_true (h.flag.mpr nofun) nofun
  idle := nofun
  order := by
    rw [h.order]
    simp [Out.waiting]

/-- The last call is given back. -/
theorem Phase.free_last {v : View} {a : ℕ} (h : Phase v (.held a)) (he : v.node.asyncTodo=[]) :
    Phase { v with
      unfreed := fun a' => a'≠a∧v.unfreed a'
      node := ⟨false,v.node.asyncTodo⟩ } .idle where
  todo := h.todo
  unfreed a' := by
    refine iff_of_false (fun ⟨hne,hu⟩ => hne ?_) nofun
    exact (Out.held.inj ((h.unfreed a').mp hu)).symm
  flag := iff_of_false nofun fun h => h rfl
  idle _ := he
  order := h.order

/-- A call is given back, and the next one goes to the thread. -/
theorem Phase.free_next {v : View} {a : ℕ} {t : Transaction} {ts : List Transaction} {l : Todo}
    (h : Phase v (.held a)) (he : v.node.asyncTodo=t::ts) :
    Phase { v with
      todo := fun l' => if l'=l then v.todo l'++[t] else v.todo l'
      unfreed := fun a' => a'≠a∧v.unfreed a'
      node := ⟨v.node.hasAsyncTransaction,ts⟩ } (.queued l t) where
  todo l' := by
    dsimp only
    rw [h.todo]
    rfl
  unfreed a' := by
    refine iff_of_false (fun ⟨hne,hu⟩ => hne ?_) nofun
    exact (Out.held.inj ((h.unfreed a').mp hu)).symm
  flag := iff_of_true (h.flag.mpr nofun) nofun
  idle := nofun
  order := by
    rw [h.order,he]
    rfl

/-! ## The process -/

variable {p q : Proc} {t : Transaction}

theorem works_setWorks (p : Proc) (l l' : Todo) (ws : List Work) :
    (p.setWorks l ws).works l'=if l'=l then ws else p.works l' := by
  cases l with
  | proc => cases l' <;> rfl
  | thread pid =>
    cases l' with
    | proc => rfl
    | thread pid' =>
      change (update p.threads pid (some ws) pid').getD []=_
      by_cases h : pid'=pid
      · rw [h,update_self,if_pos rfl]
        rfl
      · rw [update_of_ne h,if_neg (fun heq => h (Todo.thread.inj heq))]
        rfl

section

variable (p : Proc) (l : Todo) (ws : List Work)

@[simp] theorem setWorks_nodes : (p.setWorks l ws).nodes=p.nodes := by cases l <;> rfl
@[simp] theorem setWorks_buffers : (p.setWorks l ws).buffers=p.buffers := by cases l <;> rfl
@[simp] theorem setWorks_lastId : (p.setWorks l ws).lastId=p.lastId := by cases l <;> rfl
@[simp] theorem setWorks_accepted : (p.setWorks l ws).accepted=p.accepted := by cases l <;> rfl
@[simp] theorem setWorks_delivered : (p.setWorks l ws).delivered=p.delivered := by cases l <;> rfl

end

/-- The transactions on each list, those of the nodes included. -/
def Proc.held (p : Proc) : Todo⊕ℕ → List Transaction
  | .inl l => transactions (p.works l)
  | .inr n => (p.nodes n).asyncTodo

/-- The buffer of a transaction that waits. -/
def Transaction.fresh (t : Transaction) : Buffer :=
  ⟨t.oneWay&&t.targetNode.isSome,t.targetNode,false⟩

/-- The transactions that wait have buffers of their own. -/
structure Held (p : Proc) : Prop where
  /-- A buffer belongs to one transaction at most. -/
  spread : Spread fun i => (p.held i).map Transaction.buffer
  /-- A transaction that waits has its buffer, which cannot be given back yet. -/
  linked : ∀ i,∀ t∈p.held i,p.buffers t.buffer=some t.fresh

/-- What holds of a process whose threads exit without one-way calls. -/
structure Inv (p : Proc) : Prop extends Held p where
  /-- Every node is in step with its calls. -/
  phase : ∀ n,∃ o,Phase (p.view n) o
  /-- The list of a node holds one-way calls to it. -/
  own : ∀ n,∀ t∈(p.nodes n).asyncTodo,t.goesTo n=true
  /-- The ids were given out. -/
  ids : ∀ n,∀ i∈p.accepted n,i≤p.lastId
  /-- No call is accepted twice. -/
  nodup : ∀ n,(p.accepted n).Nodup

/-- Nothing happens to calls. -/
theorem Inv.congr (h : Inv p) (hview : ∀ n,q.view n=p.view n) (hheld : ∀ i,q.held i=p.held i)
    (hbuf : q.buffers=p.buffers) (hid : p.lastId≤q.lastId) : Inv q := by
  have haccepted : ∀ n,q.accepted n=p.accepted n := fun n => congrArg View.accepted (hview n)
  have hlist : ∀ n,(q.nodes n).asyncTodo=(p.nodes n).asyncTodo := fun n => hheld (.inr n)
  refine ⟨⟨?_,fun i t ht => ?_⟩,fun n => (hview n).symm▸h.phase n,fun n t ht => ?_,
    fun n i hi => ?_,fun n => ?_⟩
  · simp only [hheld]
    exact h.spread
  · rw [hbuf]
    exact h.linked i t (hheld i▸ht)
  · exact h.own n t (hlist n▸ht)
  · exact (h.ids n i (haccepted n▸hi)).trans hid
  · rw [haccepted]
    exact h.nodup n

theorem transactions_append (ws ws' : List Work) :
    transactions (ws++ws')=transactions ws++transactions ws' := List.filterMap_append

theorem works_add (p : Proc) (l l' : Todo) (w : Work) :
    (p.add l w).works l'=if l'=l then p.works l'++[w] else p.works l' := by
  unfold Proc.add
  rw [works_setWorks]
  split
  · next h => rw [h]
  · rfl

/-- Work that is no transaction changes no list of transactions. -/
theorem transactions_add_other {w : Work} (hw : w=.transactionComplete∨w=.other) (p : Proc)
    (l l' : Todo) : transactions ((p.add l w).works l')=transactions (p.works l') := by
  rw [works_add]
  split
  · rw [transactions_append]
    rcases hw with rfl|rfl <;> exact List.append_nil _
  · rfl

theorem Inv.add_other (h : Inv p) (l : Todo) {w : Work}
    (hw : w=.transactionComplete∨w=.other) : Inv (p.add l w) := by
  refine h.congr (fun n => ?_) (fun i => ?_) (setWorks_buffers ..) (setWorks_lastId ..).ge
  · unfold Proc.view
    simp only [transactions_add_other hw]
    simp [Proc.add]
  · cases i with
    | inl l' => exact transactions_add_other hw p l l'
    | inr n => simp [Proc.held,Proc.add]

/-! ## Transactions -/

/-- Buffers that cannot be given back are not seen. -/
theorem unfreed_update {a : ℕ} {b : Buffer} (ha : p.buffers a=none) (hb : b.allowUserFree=false)
    (n a' : ℕ) : update p.buffers a (some b) a'=some ⟨true,some n,true⟩ ↔
      p.buffers a'=some ⟨true,some n,true⟩ := by
  by_cases h : a'=a
  · rw [h,update_self,ha]
    refine iff_of_false (fun heq => ?_) nofun
    rw [Option.some.inj heq] at hb
    cases hb
  · rw [update_of_ne h]

/-- No transaction that waits has a buffer at an address. -/
def Unused (p : Proc) (a : ℕ) : Prop := ∀ i,a∉(p.held i).map Transaction.buffer

theorem Held.unused (h : Held p) {a : ℕ} (ha : p.buffers a=none) : Unused p a := by
  intro i hm
  have ⟨t,ht,heq⟩ := List.mem_map.mp hm
  have hl := h.linked i t ht
  rw [heq,ha] at hl
  cases hl

/-- A buffer is allocated. -/
theorem Inv.alloc (h : Inv p) {a id : ℕ} {b : Buffer} (ha : p.buffers a=none)
    (hb : b.allowUserFree=false) (hid : p.lastId≤ id) :
    Inv ({ p with lastId := id }.setBuffer a (some b)) := by
  have hview : ∀ n,({ p with lastId := id }.setBuffer a (some b)).view n=p.view n := by
    intro n
    ext a'
    case unfreed => exact unfreed_update ha hb n a'
    all_goals rfl
  refine ⟨⟨h.spread,fun i t ht => ?_⟩,fun n => (hview n).symm▸h.phase n,h.own,
    fun n i hi => (h.ids n i hi).trans hid,h.nodup⟩
  have hne : t.buffer≠a := fun heq => h.unused ha i (heq▸List.mem_map_of_mem ht)
  exact (update_of_ne hne _ _).trans (h.linked i t ht)

/-- A transaction with a buffer of its own is put at the end of a list. -/
structure Grows (p : Proc) (t : Transaction) (i : Todo⊕ℕ) (q : Proc) : Prop where
  /-- It is at the end of the list. -/
  held : ∀ j,q.held j=if j=i then p.held j++[t] else p.held j
  /-- No other transaction has its buffer. -/
  unused : Unused p t.buffer
  /-- It has a buffer. -/
  linked : p.buffers t.buffer=some t.fresh
  /-- The buffers stay. -/
  buffers : q.buffers=p.buffers

theorem Grows.keeps {i : Todo⊕ℕ} (g : Grows p t i q) (h : Held p) : Held q where
  spread := by
    refine h.spread.add i g.unused fun j => ?_
    rw [g.held]
    split
    · rw [List.map_append]
      rfl
    · rfl
  linked j t' ht' := by
    rw [g.held] at ht'
    have hcases : t'∈p.held j∨t'=t := by
      split at ht'
      · simpa using ht'
      · exact .inl ht'
    rw [g.buffers]
    rcases hcases with hm|rfl
    · exact h.linked j t' hm
    · exact g.linked

theorem transactions_add (p : Proc) (l l' : Todo) (t : Transaction) :
    transactions ((p.add l (.transaction t)).works l')=
      if l'=l then transactions (p.works l')++[t] else transactions (p.works l') := by
  rw [works_add]
  split
  · rw [transactions_append]
    rfl
  · rfl

theorem grows_add (hu : Unused p t.buffer) (hl : p.buffers t.buffer=some t.fresh) (l : Todo) :
    Grows p t (.inl l) (p.add l (.transaction t)) where
  held j := by
    cases j with
    | inl l' =>
      refine (transactions_add p l l' t).trans ?_
      simp only [Sum.inl.injEq]
      rfl
    | inr n => simp [Proc.held,Proc.add]
  unused := hu
  linked := hl
  buffers := setWorks_buffers ..

/-- What is seen of a node when a transaction is put on a list. -/
theorem view_add (p : Proc) (l : Todo) (t : Transaction) (n : ℕ) :
    (p.add l (.transaction t)).view n={ p.view n with
      todo := fun l' =>
        if l'=l then (p.view n).todo l'++(if t.goesTo n then [t] else [])
        else (p.view n).todo l' } := by
  have htodo : ∀ l',((p.add l (.transaction t)).view n).todo l'=
      if l'=l then (p.view n).todo l'++(if t.goesTo n then [t] else []) else (p.view n).todo l' := by
    intro l'
    unfold Proc.view
    dsimp only
    rw [transactions_add]
    split
    · cases ht : t.goesTo n <;> simp [ht]
    · rfl
  ext1
  · exact funext htodo
  all_goals simp [Proc.view,Proc.add]

/-- Nothing is seen of a transaction that does not go to the node. -/
theorem view_add_none {n : ℕ} (hno : t.goesTo n=false) (p : Proc) (l : Todo) :
    (p.add l (.transaction t)).view n=p.view n := by
  rw [view_add,hno]
  ext1
  · refine funext fun l' => ?_
    dsimp only
    split
    · exact List.append_nil _
    · rfl
  all_goals rfl

theorem goesTo_unique {m n : ℕ} (hn : t.goesTo n=true) (hm : m≠n) : t.goesTo m=false := by
  unfold Transaction.goesTo at *
  rw [Bool.and_eq_true,beq_iff_eq] at hn
  rw [hn.2]
  simp [Ne.symm hm]

/-- A transaction that is no one-way call is put on a list. -/
theorem Inv.add_call (h : Inv p) (hu : Unused p t.buffer)
    (hl : p.buffers t.buffer=some t.fresh) (l : Todo) (hno : ∀ n,t.goesTo n=false) :
    Inv (p.add l (.transaction t)) := by
  have g := grows_add hu hl l
  have hview : ∀ n,(p.add l (.transaction t)).view n=p.view n :=
    fun n => view_add_none (hno n) p l
  have hnodes : (p.add l (.transaction t)).nodes=p.nodes := setWorks_nodes ..
  have haccepted : (p.add l (.transaction t)).accepted=p.accepted := setWorks_accepted ..
  have hid : (p.add l (.transaction t)).lastId=p.lastId := setWorks_lastId ..
  refine ⟨g.keeps h.toHeld,fun n => (hview n).symm▸h.phase n,?_,?_,?_⟩
  · rw [hnodes]
    exact h.own
  · rw [haccepted,hid]
    exact h.ids
  · rw [haccepted]
    exact h.nodup

/-- A one-way call is accepted, and its node changes. -/
def Proc.accept (p : Proc) (n id : ℕ) (node : Node) : Proc :=
  { p with accepted := update p.accepted n (p.accepted n++[id]) }.setNode n node

/-- The ids of the calls to a node once there is a new one. -/
theorem Inv.accepted_ids (h : Inv p) {n id : ℕ} (hfresh : ∀ i∈p.accepted n,i< id)
    (hid : id≤p.lastId) (m : ℕ) :
    (∀ i∈update p.accepted n (p.accepted n++[id]) m,i≤p.lastId)∧
      (update p.accepted n (p.accepted n++[id]) m).Nodup := by
  by_cases hm : m=n
  · rw [hm,update_self]
    constructor
    · intro i hi
      rcases List.mem_append.mp hi with hi|hi
      · exact h.ids n i hi
      · exact (List.mem_singleton.mp hi).le.trans hid
    · refine (h.nodup n).append (List.nodup_singleton id) (List.disjoint_singleton.mpr fun hi => ?_)
      exact lt_irrefl _ (hfresh id hi)
  · rw [update_of_ne hm]
    exact ⟨h.ids m,h.nodup m⟩

/-- Nothing is seen of a call to another node. -/
theorem view_accept_ne (p : Proc) {m n : ℕ} (hm : m≠n) (id : ℕ) (node : Node) :
    (p.accept n id node).view m=p.view m := by
  unfold Proc.accept Proc.view Proc.setNode
  dsimp only
  rw [update_of_ne hm,update_of_ne hm]
  rfl

theorem view_accept_self (p : Proc) (n id : ℕ) (node : Node) :
    (p.accept n id node).view n={ p.view n with node := node, accepted := p.accepted n++[id] } := by
  unfold Proc.accept Proc.view Proc.setNode
  dsimp only
  rw [update_self,update_self]
  rfl

theorem Inv.accept_next {n : ℕ} (h : Inv p) (hu : Unused p t.buffer)
    (hl : p.buffers t.buffer=some t.fresh) (hto : t.goesTo n=true)
    (hfresh : ∀ i∈p.accepted n,i<t.debugId) (hid : t.debugId≤p.lastId)
    (hflag : (p.nodes n).hasAsyncTransaction=true) :
    Inv (p.accept n t.debugId { p.nodes n with asyncTodo := (p.nodes n).asyncTodo++[t] }) := by
  generalize hnode : ({ p.nodes n with asyncTodo := (p.nodes n).asyncTodo++[t] } : Node)=node
  have hself : (p.accept n t.debugId node).nodes n=node := update_self ..
  have hother : ∀ {m},m≠n → (p.accept n t.debugId node).nodes m=p.nodes m :=
    fun hm => update_of_ne hm _ _
  have g : Grows p t (.inr n) (p.accept n t.debugId node) := by
    refine ⟨fun j => ?_,hu,hl,rfl⟩
    cases j with
    | inl l => rfl
    | inr m =>
      unfold Proc.held
      dsimp only
      by_cases hm : m=n
      · rw [hm,if_pos rfl,hself,←hnode]
      · rw [if_neg (fun heq => hm (Sum.inr.inj heq)),hother hm]
  refine ⟨g.keeps h.toHeld,fun m => ?_,fun m t' ht' => ?_,
    fun m => (h.accepted_ids hfresh hid m).1,fun m => (h.accepted_ids hfresh hid m).2⟩
  · by_cases hm : m=n
    · have ⟨o,ho⟩ := h.phase n
      rw [hm,view_accept_self,←hnode]
      exact ⟨o,ho.accept_next (ho.flag.mp hflag)⟩
    · rw [view_accept_ne p hm]
      exact h.phase m
  · by_cases hm : m=n
    · rw [hm,hself,←hnode] at ht'
      rw [hm]
      rcases List.mem_append.mp ht' with ht'|ht'
      · exact h.own n t' ht'
      · exact List.mem_singleton.mp ht'▸hto
    · rw [hother hm] at ht'
      exact h.own m t' ht'

theorem Inv.accept_first {n : ℕ} (h : Inv p) (hu : Unused p t.buffer)
    (hl : p.buffers t.buffer=some t.fresh) (hto : t.goesTo n=true)
    (hfresh : ∀ i∈p.accepted n,i<t.debugId) (hid : t.debugId≤p.lastId)
    (hflag : (p.nodes n).hasAsyncTransaction=false) :
    Inv ((p.accept n t.debugId { p.nodes n with hasAsyncTransaction := true }).add .proc
      (.transaction t)) := by
  generalize hnode : ({ p.nodes n with hasAsyncTransaction := true } : Node)=node
  have hlist : ∀ m,((p.accept n t.debugId node).nodes m).asyncTodo=(p.nodes m).asyncTodo := by
    intro m
    by_cases hm : m=n
    · rw [hm]
      exact (congrArg Node.asyncTodo (update_self ..)).trans (by rw [←hnode])
    · exact congrArg Node.asyncTodo (update_of_ne hm _ _)
  have hheld : ∀ j,(p.accept n t.debugId node).held j=p.held j := by
    intro j
    cases j with
    | inl l => rfl
    | inr m => exact hlist m
  have g' := grows_add (p := p.accept n t.debugId node) (t := t)
    (fun i hi => hu i (hheld i▸hi)) hl .proc
  have g : Grows p t (.inl .proc) ((p.accept n t.debugId node).add .proc (.transaction t)) := by
    refine ⟨fun j => ?_,hu,hl,g'.buffers⟩
    rw [g'.held,hheld]
  refine ⟨g.keeps h.toHeld,fun m => ?_,fun m t' ht' => ?_,?_,?_⟩
  · by_cases hm : m=n
    · have ⟨o,ho⟩ := h.phase n
      have hidle : o=.idle := by
        by_contra hne
        exact Bool.false_ne_true (hflag.symm.trans (ho.flag.mpr hne))
      rw [hidle] at ho
      rw [hm,view_add,hto,view_accept_self,←hnode]
      exact ⟨_,ho.accept_first⟩
    · rw [view_add_none (goesTo_unique hto hm),view_accept_ne p hm]
      exact h.phase m
  · have hn : ((p.accept n t.debugId node).add .proc (.transaction t)).nodes=
      (p.accept n t.debugId node).nodes := rfl
    rw [hn,hlist] at ht'
    exact h.own m t' ht'
  · exact fun m => (h.accepted_ids hfresh hid m).1
  · exact fun m => (h.accepted_ids hfresh hid m).2

theorem Call.fresh (call : Call) (id a : ℕ) :
    Transaction.fresh ⟨id,call.flagged,a,call.targetNode⟩=⟨call.isAsync,call.targetNode,false⟩ := by
  cases call with
  | oneWay n => rfl
  | twoWay n target => rfl
  | reply thread flag => exact congrArg (Buffer.mk · none false) (Bool.and_false flag)

/-- Only one-way calls go to nodes in this sense. -/
theorem Call.goesTo_iff (call : Call) (id a n : ℕ) :
    Transaction.goesTo n ⟨id,call.flagged,a,call.targetNode⟩=true ↔ call=.oneWay n := by
  cases call with
  | oneWay m => simp [Transaction.goesTo,Call.flagged,Call.targetNode]
  | twoWay m target => simp [Transaction.goesTo,Call.flagged]
  | reply thread flag => simp [Transaction.goesTo,Call.targetNode]

/-- The transaction of a call is queued. -/
theorem Inv.enqueue (h : Inv p) (call : Call) {id a : ℕ} (hu : Unused p a)
    (hl : p.buffers a=some ⟨call.isAsync,call.targetNode,false⟩)
    (hfresh : ∀ n,∀ i∈p.accepted n,i< id) (hid : id≤p.lastId) :
    Inv (enqueue p ⟨id,call.flagged,a,call.targetNode⟩ call) := by
  have hgoes := call.goesTo_iff id a
  rw [←call.fresh id a] at hl
  generalize ht : (⟨id,call.flagged,a,call.targetNode⟩ : Transaction)=t at *
  have hta : t.buffer=a := by rw [←ht]
  have hti : t.debugId=id := by rw [←ht]
  rw [←hta] at hu hl
  rw [←hti] at hfresh hid
  unfold BinderAsync.enqueue
  cases call with
  | oneWay n =>
    dsimp only
    split
    · next hflag => exact h.accept_next hu hl ((hgoes n).mpr rfl) (hfresh n) hid hflag
    · next hflag =>
      exact h.accept_first hu hl ((hgoes n).mpr rfl) (hfresh n) hid (Bool.eq_false_iff.mpr hflag)
  | twoWay n target =>
    refine h.add_call hu hl target fun m => Bool.eq_false_iff.mpr fun hm => ?_
    cases (hgoes m).mp hm
  | reply thread flag =>
    refine h.add_call hu hl (.thread thread) fun m => Bool.eq_false_iff.mpr fun hm => ?_
    cases (hgoes m).mp hm

/-- A transaction is accepted. -/
theorem Inv.transaction (h : Inv p) (sender : Option ℕ) (call : Call) {a : ℕ}
    (ha : p.buffers a=none) : Inv (binderTransaction p sender call a) := by
  have hbase := h.alloc ha (b := ⟨call.isAsync,call.targetNode,false⟩) rfl (Nat.le_succ p.lastId)
  have hqueue := hbase.enqueue call (h.unused ha) (update_self ..)
    (fun n i hi => Nat.lt_succ_of_le (h.ids n i hi)) le_rfl
  cases sender with
  | none => exact hqueue
  | some pid => exact hqueue.add_other _ (.inl rfl)

/-! ## Buffers given back -/

/-- The transactions that wait keep their buffers when one is given back. -/
theorem Inv.linked_free (h : Inv p) {a : ℕ} {b : Buffer} (hb : p.buffers a=some b)
    (hfree : b.allowUserFree=true) : Unused p a := by
  intro i hm
  have ⟨t,ht,heq⟩ := List.mem_map.mp hm
  have hl := h.linked i t ht
  rw [heq,hb] at hl
  rw [Option.some.inj hl] at hfree
  cases hfree

/-- What is seen of a node when a buffer is given back. -/
theorem view_free (p : Proc) (a n : ℕ) : (p.setBuffer a none).view n={ p.view n with
    unfreed := fun a' => a'≠a∧(p.view n).unfreed a' } := by
  ext a'
  case unfreed =>
    unfold Proc.view Proc.setBuffer
    dsimp only
    by_cases h : a'=a
    · rw [h,update_self]
      exact iff_of_false nofun fun hf => hf.1 rfl
    · rw [update_of_ne h]
      exact (and_iff_right h).symm
  all_goals rfl

theorem view_setNode_ne (p : Proc) {m n : ℕ} (hm : m≠n) (node : Node) :
    (p.setNode n node).view m=p.view m := by
  unfold Proc.setNode Proc.view
  dsimp only
  rw [update_of_ne hm]
  rfl

theorem view_setNode_self (p : Proc) (n : ℕ) (node : Node) :
    (p.setNode n node).view n={ p.view n with node := node } := by
  unfold Proc.setNode Proc.view
  dsimp only
  rw [update_self]
  rfl

/-- Another buffer is given back than that of a call to the node. -/
theorem view_free_other {a n : ℕ} (h : ¬(p.view n).unfreed a) :
    (p.setBuffer a none).view n=p.view n := by
  rw [view_free]
  ext a'
  case unfreed =>
    refine ⟨And.right,fun hu => ⟨fun heq => h (heq▸hu),hu⟩⟩
  all_goals rfl

theorem Held.sub (h : Held p) (hs : ∀ i,(q.held i).Sublist (p.held i))
    (hb : q.buffers=p.buffers) : Held q where
  spread := h.spread.sub fun i => (hs i).map _
  linked i t ht := hb▸h.linked i t ((hs i).subset ht)

theorem Held.setBuffer (h : Held p) {a : ℕ} (hu : Unused p a) (b : Option Buffer) :
    Held (p.setBuffer a b) where
  spread := h.spread
  linked i t ht := by
    have hne : t.buffer≠a := fun heq => hu i (heq▸List.mem_map_of_mem ht)
    exact (update_of_ne hne _ _).trans (h.linked i t ht)

/-- A call to a node is given back. -/
theorem Inv.freeAsync (h : Inv p) (pid : ℕ) {a n : ℕ} (hb : (p.view n).unfreed a)
    (hu : Unused p a) :
    (p.nodes n).hasAsyncTransaction=true∧
      ((p.nodes n).asyncTodo=[] → Inv ((p.setBuffer a none).setNode n
        { p.nodes n with hasAsyncTransaction := false }))∧
      ∀ t ts,(p.nodes n).asyncTodo=t::ts → Inv (((p.setBuffer a none).setNode n
        { p.nodes n with asyncTodo := ts }).add (.thread pid) (.transaction t)) := by
  have ⟨o,ho⟩ := h.phase n
  have hheld := (ho.unfreed a).mp hb
  rw [hheld] at ho
  have hother : ∀ {m},m≠n → ¬(p.view m).unfreed a := by
    intro m hm hb'
    have heq : (some ⟨true,some m,true⟩ : Option Buffer)=some ⟨true,some n,true⟩ := hb'.symm.trans hb
    cases heq
    exact hm rfl
  have hbase := h.toHeld.setBuffer hu none
  have hnode : ∀ node m,((p.setBuffer a none).setNode n node).nodes m=
      if m=n then node else p.nodes m := by
    intro node m
    by_cases hm : m=n
    · rw [if_pos hm,hm]
      exact update_self ..
    · rw [if_neg hm]
      exact update_of_ne hm _ _
  refine ⟨ho.flag.mpr nofun,fun he => ?_,fun t ts he => ?_⟩
  · refine ⟨hbase.sub (fun j => ?_) rfl,fun m => ?_,fun m t ht => ?_,h.ids,h.nodup⟩
    · cases j with
      | inl l => exact List.Sublist.refl _
      | inr m =>
        unfold Proc.held
        dsimp only
        rw [hnode]
        split
        · next hm => rw [hm]; exact List.Sublist.refl _
        · exact List.Sublist.refl _
    · by_cases hm : m=n
      · rw [hm,view_setNode_self,view_free]
        exact ⟨_,ho.free_last he⟩
      · rw [view_setNode_ne _ hm,view_free_other (hother hm)]
        exact h.phase m
    · rw [hnode] at ht
      split at ht
      · next hm => rw [hm]; exact h.own n t ht
      · exact h.own m t ht
  · have hmem : ∀ m,∀ t'∈(if m=n then ts else (p.nodes m).asyncTodo),t'∈(p.nodes m).asyncTodo := by
      intro m t' ht'
      split at ht'
      · next hm => rw [hm,he]; exact List.mem_cons_of_mem _ ht'
      · exact ht'
    generalize hr : (p.setBuffer a none).setNode n { p.nodes n with asyncTodo := ts }=r
    have hrn : ∀ m,(r.nodes m).asyncTodo=if m=n then ts else (p.nodes m).asyncTodo := by
      intro m
      rw [←hr,hnode]
      split <;> rfl
    have hrheld : ∀ j,(r.held j).Sublist ((p.setBuffer a none).held j) := by
      intro j
      cases j with
      | inl l => rw [←hr]; exact List.Sublist.refl _
      | inr m =>
        change ((r.nodes m).asyncTodo).Sublist (p.nodes m).asyncTodo
        rw [hrn]
        split
        · next hm => rw [hm,he]; exact List.sublist_cons_self _ _
        · exact List.Sublist.refl _
    have hrbase : Held r := hbase.sub hrheld (by rw [←hr]; rfl)
    have htn : t∈p.held (.inr n) := by
      change t∈(p.nodes n).asyncTodo
      rw [he]
      exact List.mem_cons_self
    -- the next call is on no list any more
    have hru : Unused r t.buffer := by
      intro j hj
      have ⟨t',ht',heq⟩ := List.mem_map.mp hj
      have hj' : j=.inr n := h.spread.apart (List.mem_map.mpr ⟨t',(hrheld j).subset ht',heq⟩)
        (List.mem_map_of_mem htn)
      have hrj : r.held j=ts := by
        rw [hj']
        exact (hrn n).trans (if_pos rfl)
      have hnd : ((t::ts).map Transaction.buffer).Nodup := he▸h.spread.nodup (.inr n)
      rw [hrj] at hj
      exact (List.nodup_cons.mp hnd).1 hj
    have hrl : r.buffers t.buffer=some t.fresh := by
      rw [←hr]
      exact hbase.linked (.inr n) t htn
    have g := grows_add hru hrl (.thread pid)
    refine ⟨g.keeps hrbase,fun m => ?_,fun m t' ht' => ?_,?_,?_⟩
    · by_cases hm : m=n
      · rw [hm,view_add,←hr,view_setNode_self,view_free,h.own n t htn]
        exact ⟨_,ho.free_next he⟩
      · rw [view_add_none (goesTo_unique (h.own n t htn) hm),←hr,view_setNode_ne _ hm,
          view_free_other (hother hm)]
        exact h.phase m
    · have hn : (r.add (.thread pid) (.transaction t)).nodes=r.nodes := setWorks_nodes ..
      rw [hn,hrn] at ht'
      exact h.own m t' (hmem m t' ht')
    · rw [←hr]
      exact h.ids
    · rw [←hr]
      exact h.nodup

theorem Inv.freeBuffer (h : Inv p) (pid a : ℕ) : ∃ q,freeBuffer p pid a=some q∧Inv q := by
  unfold BinderAsync.freeBuffer
  cases hb : p.buffers a with
  | none => exact ⟨p,rfl,h⟩
  | some b =>
    dsimp only
    by_cases hfree : ¬b.allowUserFree=true
    · rw [if_pos hfree]
      exact ⟨p,rfl,h⟩
    rw [if_neg hfree]
    have hfree : b.allowUserFree=true := not_not.mp hfree
    have hu := h.linked_free hb hfree
    have hother : (∀ n,b≠⟨true,some n,true⟩) → Inv (p.setBuffer a none) := by
      intro hno
      have hview : ∀ n,(p.setBuffer a none).view n=p.view n := fun n =>
        view_free_other fun hub => hno n (Option.some.inj (hb.symm.trans hub))
      exact ⟨h.toHeld.setBuffer hu none,fun n => (hview n).symm▸h.phase n,h.own,h.ids,h.nodup⟩
    have ⟨isAsync,target,allow⟩ := b
    dsimp only at hfree ⊢
    rw [hfree] at hb hother
    cases isAsync with
    | false => exact ⟨_,rfl,hother nofun⟩
    | true =>
      cases target with
      | none => exact ⟨_,rfl,hother nofun⟩
      | some n =>
        have ⟨hflag,hlast,hnext⟩ := h.freeAsync pid hb hu
        dsimp only
        have hflag' : ¬¬((p.setBuffer a none).nodes n).hasAsyncTransaction=true := not_not.mpr hflag
        rw [if_neg hflag']
        cases he : (p.nodes n).asyncTodo with
        | nil =>
          have he' : ((p.setBuffer a none).nodes n).asyncTodo=[] := he
          have hq := hlast he
          dsimp only at hq
          rw [he] at hq
          rw [he']
          exact ⟨_,rfl,hq⟩
        | cons t ts =>
          have he' : ((p.setBuffer a none).nodes n).asyncTodo=t::ts := he
          rw [he']
          exact ⟨_,rfl,hnext t ts he⟩

/-! ## Reads -/

/-- The first work is taken off a list. -/
theorem works_tail {l l' : Todo} {w : Work} {ws : List Work} (hl : p.works l=w::ws) :
    (p.setWorks l (p.works l).tail).works l'=if l'=l then ws else p.works l' := by
  rw [works_setWorks,hl]
  rfl

theorem Inv.read_other (h : Inv p) {l : Todo} {w : Work} {ws : List Work}
    (hl : p.works l=w::ws) (hw : transactions [w]=[]) : Inv (p.setWorks l (p.works l).tail) := by
  have hsame : ∀ l',transactions ((p.setWorks l (p.works l).tail).works l')=
      transactions (p.works l') := by
    intro l'
    rw [works_tail hl]
    split
    · next heq =>
      have hcons := transactions_append [w] ws
      rw [hw] at hcons
      rw [heq,hl]
      exact hcons.symm
    · rfl
  refine h.congr (fun n => ?_) (fun i => ?_) (setWorks_buffers ..) (setWorks_lastId ..).ge
  · unfold Proc.view
    simp only [hsame]
    simp
  · cases i with
    | inl l' => exact hsame l'
    | inr n => simp [Proc.held]

/-- A transaction is read: it is off its list, and its buffer can be given back. -/
def Proc.taken (p : Proc) (l : Todo) (t : Transaction) : Proc :=
  (p.setWorks l (p.works l).tail).setBuffer t.buffer (some { t.fresh with allowUserFree := true })

theorem held_taken {l : Todo} {ws : List Work} (hl : p.works l=.transaction t::ws) (j : Todo⊕ℕ) :
    (p.taken l t).held j=if j=.inl l then transactions ws else p.held j := by
  cases j with
  | inl l' =>
    refine (congrArg transactions (works_tail hl)).trans ?_
    simp only [Sum.inl.injEq]
    split <;> rfl
  | inr n => simp [Proc.held,Proc.taken,Proc.setBuffer]

theorem held_head {l : Todo} {ws : List Work} (hl : p.works l=.transaction t::ws) :
    p.held (.inl l)=t::transactions ws := by
  change transactions (p.works l)=_
  rw [hl]
  rfl

theorem Held.taken (h : Held p) {l : Todo} {ws : List Work} (hl : p.works l=.transaction t::ws) :
    Held (p.taken l t) := by
  have hheld : ∀ j,(p.setWorks l (p.works l).tail).held j=
    if j=.inl l then transactions ws else p.held j := held_taken hl
  have hhead := held_head hl
  have hsub : ∀ j,((p.setWorks l (p.works l).tail).held j).Sublist (p.held j) := by
    intro j
    rw [hheld]
    split
    · next hj =>
      rw [hj,hhead]
      exact List.sublist_cons_self _ _
    · exact List.Sublist.refl _
  have hu : Unused (p.setWorks l (p.works l).tail) t.buffer := by
    intro j hj
    have hj' : j=.inl l := by
      refine h.spread.apart (((hsub j).map _).subset hj) ?_
      rw [hhead]
      exact List.mem_cons_self
    have hnd : ((t::transactions ws).map Transaction.buffer).Nodup := hhead▸h.spread.nodup (.inl l)
    rw [hheld,if_pos hj'] at hj
    exact (List.nodup_cons.mp hnd).1 hj
  exact (h.sub hsub (setWorks_buffers ..)).setBuffer hu _

/-- The calls on the lists when a transaction is read. -/
theorem todo_taken {l : Todo} {ws : List Work} (hl : p.works l=.transaction t::ws) (n : ℕ)
    (l' : Todo) : ((p.taken l t).view n).todo l'=
      if l'=l then (transactions ws).filter (·.goesTo n) else (p.view n).todo l' := by
  refine (congrArg (List.filter _) (held_taken hl (.inl l'))).trans ?_
  simp only [Sum.inl.injEq]
  split <;> rfl

theorem buffers_taken (p : Proc) (l : Todo) (t : Transaction) : (p.taken l t).buffers=
    update p.buffers t.buffer (some { t.fresh with allowUserFree := true }) := by
  unfold Proc.taken Proc.setBuffer
  rw [setWorks_buffers]

/-- Nothing is seen of a transaction that does not go to the node. -/
theorem view_taken_none (h : Held p) {l : Todo} {ws : List Work}
    (hl : p.works l=.transaction t::ws) {n : ℕ} (hno : t.goesTo n=false) :
    (p.taken l t).view n=p.view n := by
  have hhead := held_head hl
  ext1
  · refine funext fun l' => (todo_taken hl n l').trans ?_
    split
    · next heq =>
      change _=(p.held (.inl l')).filter _
      rw [heq,hhead,List.filter_cons_of_neg (by simp [hno])]
    · rfl
  · refine funext fun a => propext ?_
    change (p.taken l t).buffers a=_ ↔ p.buffers a=_
    rw [buffers_taken]
    by_cases ha : a=t.buffer
    · rw [ha,update_self,h.linked (.inl l) t (by rw [hhead]; exact List.mem_cons_self)]
      refine iff_of_false (fun heq => ?_) (fun heq => ?_)
      · have hasync : (t.oneWay&&t.targetNode.isSome)=true :=
          congrArg Buffer.asyncTransaction (Option.some.inj heq)
        have htarget : t.targetNode=some n := congrArg Buffer.targetNode (Option.some.inj heq)
        unfold Transaction.goesTo at hno
        rw [Bool.and_eq_true] at hasync
        rw [hasync.1,htarget] at hno
        simp at hno
      · exact Bool.false_ne_true (congrArg Buffer.allowUserFree (Option.some.inj heq))
    · rw [update_of_ne ha]
  all_goals simp [Proc.view,Proc.taken,Proc.setBuffer]

/-- What is seen of the node to which the transaction goes. -/
theorem view_taken_self {l : Todo} {ws : List Work} (hl : p.works l=.transaction t::ws) {n : ℕ}
    (hto : t.goesTo n=true) {o : Out} (ho : Phase (p.view n) o) :
    o=.queued l t∧(p.taken l t).view n={ p.view n with
      todo := fun l' => if l'=l then [] else (p.view n).todo l'
      unfreed := fun a => a=t.buffer∨(p.view n).unfreed a } := by
  have hfirst : (p.view n).todo l=t::(transactions ws).filter (·.goesTo n) := by
    change (p.held (.inl l)).filter _=_
    rw [held_head hl,List.filter_cons_of_pos hto]
  have hout : o=.queued l t∧(transactions ws).filter (·.goesTo n)=[] := by
    rw [ho.todo] at hfirst
    cases o with
    | idle => cases hfirst
    | held a => cases hfirst
    | queued l' t' =>
      unfold Out.todo at hfirst
      dsimp only at hfirst
      split at hfirst
      · next heq =>
        injection hfirst with ht hws
        exact ⟨by rw [heq,ht],hws.symm⟩
      · cases hfirst
  refine ⟨hout.1,?_⟩
  ext1
  · refine funext fun l' => (todo_taken hl n l').trans ?_
    rw [hout.2]
  · refine funext fun a => propext ?_
    change (p.taken l t).buffers a=_ ↔ a=t.buffer∨p.buffers a=_
    rw [buffers_taken]
    by_cases ha : a=t.buffer
    · rw [ha,update_self]
      refine iff_of_true ?_ (.inl rfl)
      unfold Transaction.goesTo at hto
      rw [Bool.and_eq_true,beq_iff_eq] at hto
      unfold Transaction.fresh
      rw [hto.1,hto.2]
      rfl
    · rw [update_of_ne ha,or_iff_right ha]
  all_goals simp [Proc.view,Proc.taken,Proc.setBuffer]

theorem deliver_call {n : ℕ} (hto : t.goesTo n=true) (p : Proc) :
    deliver p t t.fresh={ p.setBuffer t.buffer (some { t.fresh with allowUserFree := true }) with
      delivered := update p.delivered n (p.delivered n++[t.debugId]) } := by
  unfold Transaction.goesTo at hto
  rw [Bool.and_eq_true,beq_iff_eq] at hto
  have ⟨id,oneWay,a,target⟩ := t
  dsimp only at hto
  rw [hto.1,hto.2]
  rfl

theorem deliver_none (hno : ∀ n,t.goesTo n=false) (p : Proc) :
    deliver p t t.fresh=p.setBuffer t.buffer (some { t.fresh with allowUserFree := true }) := by
  have ⟨id,oneWay,a,target⟩ := t
  cases oneWay with
  | false => rfl
  | true =>
    cases target with
    | none => rfl
    | some n => simpa [Transaction.goesTo] using hno n

theorem Inv.read_transaction (h : Inv p) {l : Todo} {ws : List Work}
    (hl : p.works l=.transaction t::ws) :
    Inv (deliver (p.setWorks l (p.works l).tail) t t.fresh) := by
  have hheld := h.toHeld.taken hl
  have hnodes : (p.taken l t).nodes=p.nodes := setWorks_nodes ..
  have hid : (p.taken l t).lastId=p.lastId := setWorks_lastId ..
  have haccepted : (p.taken l t).accepted=p.accepted := setWorks_accepted ..
  by_cases hto : ∃ n,t.goesTo n=true
  · have ⟨n,hto⟩ := hto
    rw [deliver_call hto]
    refine ⟨⟨hheld.spread,hheld.linked⟩,fun m => ?_,?_,?_,?_⟩
    · by_cases hm : m=n
      · have ⟨o,ho⟩ := h.phase n
        have ⟨hout,hview⟩ := view_taken_self hl hto ho
        rw [hout] at ho
        refine ⟨.held t.buffer,?_⟩
        rw [hm]
        change Phase { (p.taken l t).view n with
          delivered := update (p.setWorks l (p.works l).tail).delivered n _ n } _
        rw [hview,update_self,setWorks_delivered]
        exact ho.deliver
      · have ⟨o,ho⟩ := h.phase m
        refine ⟨o,?_⟩
        change Phase { (p.taken l t).view m with
          delivered := update (p.setWorks l (p.works l).tail).delivered n _ m } _
        rw [view_taken_none h.toHeld hl (goesTo_unique hto hm),update_of_ne hm,
          setWorks_delivered]
        exact ho
    · exact hnodes▸h.own
    · exact haccepted▸hid▸h.ids
    · exact haccepted▸h.nodup
  · have hno : ∀ n,t.goesTo n=false := fun n => Bool.eq_false_iff.mpr fun hn => hto ⟨n,hn⟩
    rw [deliver_none hno]
    refine ⟨hheld,fun n => ?_,?_,?_,?_⟩
    · exact (view_taken_none h.toHeld hl (hno n)).symm▸h.phase n
    · exact hnodes▸h.own
    · exact haccepted▸hid▸h.ids
    · exact haccepted▸h.nodup

/-- A turn of the loop that reads. -/
theorem Inv.read (h : Inv p) (pid : ℕ) (waitForProcWork stop : Bool) :
    ∃ q,binderThreadRead p pid waitForProcWork stop=some q∧Inv q := by
  unfold binderThreadRead
  cases hn : nextWork p pid waitForProcWork with
  | none => exact ⟨p,rfl,h⟩
  | some lw =>
    have ⟨l,w⟩ := lw
    have ⟨ws,hl⟩ : ∃ ws,p.works l=w::ws := by
      unfold nextWork at hn
      cases hw : p.works (.thread pid) with
      | cons w' ws =>
        rw [hw] at hn
        cases hn
        exact ⟨ws,hw⟩
      | nil =>
        cases ht : p.todo with
        | nil =>
          rw [hw,ht] at hn
          cases hn
        | cons w' ws =>
          rw [hw,ht] at hn
          dsimp only at hn
          split at hn
          · cases hn
            exact ⟨ws,ht⟩
          · cases hn
    cases w with
    | transaction t =>
      have ht : t∈p.held (.inl l) := by
        change t∈transactions (p.works l)
        rw [hl]
        exact List.mem_cons_self
      dsimp only
      rw [h.linked _ t ht]
      cases stop with
      | true => exact ⟨p,rfl,h⟩
      | false => exact ⟨_,rfl,h.read_transaction hl⟩
    | transactionComplete =>
      cases stop with
      | true => exact ⟨p,rfl,h⟩
      | false => exact ⟨_,rfl,h.read_other hl rfl⟩
    | other =>
      cases stop with
      | true => exact ⟨p,rfl,h⟩
      | false => exact ⟨_,rfl,h.read_other hl rfl⟩

/-! ## Threads -/

/-- A thread exits without one-way calls. -/
theorem Inv.threadExit (h : Inv p) {pid : ℕ}
    (hno : ∀ t∈transactions (p.works (.thread pid)),∀ n,t.goesTo n=false) :
    Inv (binderFreeThread p pid) := by
  have hworks : ∀ l,(binderFreeThread p pid).works l=if l=.thread pid then [] else p.works l := by
    intro l
    cases l with
    | proc => rfl
    | thread pid' =>
      change (update p.threads pid none pid').getD []=_
      by_cases hp : pid'=pid
      · rw [hp,update_self,if_pos rfl]
        rfl
      · rw [update_of_ne hp,if_neg (fun heq => hp (Todo.thread.inj heq))]
        rfl
  have hview : ∀ n,(binderFreeThread p pid).view n=p.view n := by
    intro n
    ext1
    · refine funext fun l => ?_
      unfold Proc.view
      dsimp only
      rw [hworks]
      split
      · next hl =>
        rw [hl]
        exact (List.filter_eq_nil_iff.mpr fun t ht => by simp [hno t ht n]).symm
      · rfl
    all_goals rfl
  refine ⟨h.toHeld.sub (fun i => ?_) rfl,fun n => (hview n).symm▸h.phase n,h.own,h.ids,h.nodup⟩
  cases i with
  | inl l =>
    change (transactions ((binderFreeThread p pid).works l)).Sublist (transactions (p.works l))
    rw [hworks]
    split
    · exact List.nil_sublist _
    · exact List.Sublist.refl _
  | inr n => exact List.Sublist.refl _

theorem Inv.getThread (h : Inv p) {pid : ℕ} (hnew : p.live (.thread pid)=false) :
    Inv (p.setWorks (.thread pid) []) := by
  have hworks : ∀ l,(p.setWorks (.thread pid) []).works l=p.works l := by
    intro l
    rw [works_setWorks]
    split
    · next hl =>
      have hnone : p.threads pid=none := by
        simpa [Proc.live] using hnew
      rw [hl]
      change []=(p.threads pid).getD []
      rw [hnone]
      rfl
    · rfl
  refine h.congr (fun n => ?_) (fun i => ?_) rfl le_rfl
  · unfold Proc.view
    simp only [hworks]
    rfl
  · cases i with
    | inl l => exact congrArg transactions (hworks l)
    | inr n => rfl

/-! ## Runs -/

theorem inv_start : Inv start := by
  refine ⟨⟨⟨fun i => ?_,fun {i j a} hi => ?_⟩,fun i t ht => ?_⟩,fun n => ⟨.idle,?_⟩,nofun,nofun,
    fun n => List.nodup_nil⟩
  · cases i with
    | inl l => cases l <;> exact List.nodup_nil
    | inr n => exact List.nodup_nil
  · cases i with
    | inl l => cases l <;> cases hi
    | inr n => cases hi
  · cases i with
    | inl l => cases l <;> cases ht
    | inr n => cases ht
  · refine ⟨fun l => ?_,fun a => iff_of_false nofun nofun,iff_of_false nofun fun hf => hf rfl,
      fun _ => rfl,rfl⟩
    cases l <;> rfl

/-- A thread exits only when no one-way call is on its list. -/
def Op.Safe (p : Proc) (op : Op) : Prop :=
  ∀ pid,op=.threadExit pid → ∀ t∈transactions (p.works (.thread pid)),∀ n,t.goesTo n=false

theorem Inv.step (h : Inv p) {op : Op} (hop : op.Allowed p) (hsafe : op.Safe p) :
    ∃ q,step p op=some q∧Inv q := by
  cases op with
  | getThread pid => exact ⟨_,rfl,h.getThread hop⟩
  | transaction sender call a => exact ⟨_,rfl,h.transaction sender call hop.2.1⟩
  | failed => exact ⟨_,rfl,h.congr (fun _ => rfl) (fun _ => rfl) rfl (Nat.le_succ _)⟩
  | freeBuffer pid a => exact h.freeBuffer pid a
  | read pid waitForProcWork stop => exact h.read pid waitForProcWork stop
  | work l w => exact ⟨_,rfl,h.add_other l hop.2⟩
  | threadExit pid => exact ⟨_,rfl,h.threadExit (hsafe pid rfl)⟩

/-- Where a call can be. -/
inductive Spot where
  /-- On the list of the process, or of a thread. -/
  | todo (l : Todo)
  /-- On the list of the node. -/
  | asyncTodo
  /-- Delivered. -/
  | delivered

/-- Where a call to a node is. -/
def At (p : Proc) (n id : ℕ) : Spot → Prop
  | .todo l => ∃ t∈(p.view n).todo l,t.debugId=id
  | .asyncTodo => ∃ t∈(p.nodes n).asyncTodo,t.debugId=id
  | .delivered => id∈p.delivered n

/-- A call is not on the list of the node, and was not given back. -/
def Outside (p : Proc) (n : ℕ) : Out → Prop
  | .idle => False
  | .queued l t => t∈(p.view n).todo l
  | .held a => (p.view n).unfreed a

/-- The calls to a node are neither lost nor reordered. -/
structure Orderly (p : Proc) (n : ℕ) : Prop where
  /-- Every call that was accepted is in one place. -/
  place : ∀ id∈p.accepted n,∃! s,At p n id s
  /-- No other call is anywhere. -/
  known : ∀ id s,At p n id s → id∈p.accepted n
  /-- A list with a call on it is that of the process or of a thread there is. -/
  live : ∀ id l,At p n id (.todo l) → p.live l=true
  /-- At most one is outside the list of the node and not given back. -/
  single : ∀ x y,Outside p n x → Outside p n y → x=y
  /-- It is on its list once. -/
  once : ∀ l,((p.view n).todo l).length≤1
  /-- The flag is set exactly while there is one. -/
  flag : (p.nodes n).hasAsyncTransaction=true ↔ ∃ x,Outside p n x
  /-- While calls wait for it there is one. -/
  parked : (p.nodes n).asyncTodo≠[] → ∃ x,Outside p n x
  /-- They are delivered in the order in which they were accepted. -/
  order : p.delivered n<+:p.accepted n

/-- The call outside is the one of the phase. -/
theorem Phase.outside_iff {n : ℕ} {o : Out} (h : Phase (p.view n) o) (x : Out) :
    Outside p n x ↔ x=o∧o≠.idle := by
  cases x with
  | idle => exact iff_of_false id fun hx => hx.2 hx.1.symm
  | queued l t =>
    change t∈(p.view n).todo l ↔ _
    rw [h.todo]
    cases o with
    | idle => exact iff_of_false nofun nofun
    | held a => exact iff_of_false nofun nofun
    | queued l' t' =>
      change t∈(if l=l' then [t'] else []) ↔ _
      split
      · next hl => simp [hl]
      · next hl => simp [hl]
  | held a =>
    refine (h.unfreed a).trans ⟨fun ho => ⟨ho.symm,fun hi => ?_⟩,fun ho => ho.1.symm⟩
    cases ho.symm.trans hi

theorem Phase.at_todo {n id : ℕ} {o : Out} (h : Phase (p.view n) o) (l : Todo) :
    At p n id (.todo l) ↔ ∃ t,o=.queued l t∧t.debugId=id := by
  refine exists_congr fun t => and_congr_left fun _ => ?_
  refine (h.outside_iff (.queued l t)).trans ⟨fun ho => ho.1.symm,fun ho => ⟨ho.symm,?_⟩⟩
  rw [ho]
  nofun

theorem Inv.orderly (h : Inv p) (n : ℕ) : Orderly p n := by
  have ⟨o,ho⟩ := h.phase n
  have horder : p.accepted n=p.delivered n++
    (o.waiting.map Transaction.debugId++(p.nodes n).asyncTodo.map Transaction.debugId) := by
    rw [←List.map_append]
    exact ho.order
  have hnd := h.nodup n
  rw [horder] at hnd
  have ⟨_,hnd',hdis⟩ := List.nodup_append'.mp hnd
  have ⟨_,_,hdis'⟩ := List.nodup_append'.mp hnd'
  have hwait : ∀ id,id∈o.waiting.map Transaction.debugId ↔ ∃ l,At p n id (.todo l) := by
    intro id
    simp only [ho.at_todo]
    cases o with
    | idle => exact iff_of_false nofun nofun
    | held a => exact iff_of_false nofun nofun
    | queued l t => simp [Out.waiting,eq_comm]
  have hnode : ∀ id,id∈(p.nodes n).asyncTodo.map Transaction.debugId ↔ At p n id .asyncTodo :=
    fun id => List.mem_map
  have hout : ∀ x y,Outside p n x → Outside p n y → x=y := fun x y hx hy =>
    ((ho.outside_iff x).mp hx).1.trans ((ho.outside_iff y).mp hy).1.symm
  have hflag : (p.nodes n).hasAsyncTransaction=true ↔ ∃ x,Outside p n x := by
    refine ho.flag.trans ⟨fun hi => ⟨o,(ho.outside_iff o).mpr ⟨rfl,hi⟩⟩,fun ⟨x,hx⟩ => ?_⟩
    exact ((ho.outside_iff x).mp hx).2
  refine ⟨fun id hid => ?_,fun id s hs => ?_,fun id l hl => ?_,hout,fun l => ?_,hflag,
    fun hne => hflag.mp (ho.flag.mpr fun hi => hne (ho.idle hi)),⟨_,horder.symm⟩⟩
  · rw [horder] at hid
    rcases List.mem_append.mp hid with hd|hid
    · refine ⟨.delivered,hd,fun s hs => ?_⟩
      cases s with
      | delivered => rfl
      | todo l => exact absurd (List.mem_append_left _ ((hwait id).mpr ⟨l,hs⟩)) (hdis hd)
      | asyncTodo => exact absurd (List.mem_append_right _ ((hnode id).mpr hs)) (hdis hd)
    rcases List.mem_append.mp hid with hw|hw
    · have ⟨l,hl⟩ := (hwait id).mp hw
      refine ⟨.todo l,hl,fun s hs => ?_⟩
      cases s with
      | delivered => exact absurd (List.mem_append_left _ hw) (hdis hs)
      | asyncTodo => exact absurd ((hnode id).mpr hs) (hdis' hw)
      | todo l' =>
        have ⟨t,ht,_⟩ := (ho.at_todo l).mp hl
        have ⟨t',ht',_⟩ := (ho.at_todo l').mp hs
        rw [(Out.queued.inj (ht.symm.trans ht')).1]
    · refine ⟨.asyncTodo,(hnode id).mp hw,fun s hs => ?_⟩
      cases s with
      | delivered => exact absurd (List.mem_append_right _ hw) (hdis hs)
      | asyncTodo => rfl
      | todo l => exact absurd hw (hdis' ((hwait id).mpr ⟨l,hs⟩))
  · rw [horder]
    cases s with
    | delivered => exact List.mem_append_left _ hs
    | todo l =>
      exact List.mem_append_right _ (List.mem_append_left _ ((hwait id).mpr ⟨l,hs⟩))
    | asyncTodo =>
      exact List.mem_append_right _ (List.mem_append_right _ ((hnode id).mpr hs))
  · have ⟨t,ht,_⟩ := hl
    cases l with
    | proc => rfl
    | thread pid =>
      have hne : p.threads pid≠none := by
        intro hnone
        have hw : p.works (.thread pid)=[] := by
          change (p.threads pid).getD []=[]
          rw [hnone]
          rfl
        change t∈(transactions (p.works (.thread pid))).filter _ at ht
        rw [hw] at ht
        cases ht
      exact Option.isSome_iff_ne_none.mpr hne
  · rw [ho.todo l]
    cases o with
    | idle => exact Nat.zero_le 1
    | held a => exact Nat.zero_le 1
    | queued l' t =>
      change (if l=l' then [t] else []).length≤1
      split <;> simp

/-- As long as threads exit only when no one-way call is on their lists, one-way calls are
neither lost nor reordered, and whatever happens next has a result. -/
theorem run_orderly {ops : List Op}
    (run : Run step (fun p op => op.Allowed p∧op.Safe p) start ops p) :
    (∀ n,Orderly p n)∧∀ op : Op,op.Allowed p → op.Safe p → ∃ q,step p op=some q := by
  have h : Inv p := by
    refine run.invariant Inv inv_start fun hinv hok hstep => ?_
    have ⟨q,heq,hq⟩ := hinv.step hok.1 hok.2
    cases heq.symm.trans hstep
    exact hq
  refine ⟨h.orderly,fun op hop hsafe => ?_⟩
  have ⟨q,heq,_⟩ := h.step hop hsafe
  exact ⟨q,heq⟩

theorem run_orderly_example : ∃ p,Run step (fun p op => op.Allowed p∧op.Safe p) start
    [.getThread 1,.transaction none (.oneWay 0) 0,.transaction none (.oneWay 0) 64,
      .read 1 true false,.freeBuffer 1 0,.read 1 false false,.threadExit 1] p∧
    p.delivered 0=[1,2]∧∀ n,Orderly p n := by
  have ⟨p,hp,hd⟩ : ∃ p,Run step (fun p op => op.Allowed p∧op.Safe p) start
      [.getThread 1,.transaction none (.oneWay 0) 0,.transaction none (.oneWay 0) 64,
        .read 1 true false,.freeBuffer 1 0,.read 1 false false,.threadExit 1] p∧
      p.delivered 0=[1,2] := by
    refine ⟨_,Run.cons ⟨rfl,nofun⟩ rfl (Run.cons ⟨⟨nofun,rfl,trivial⟩,nofun⟩ rfl
      (Run.cons ⟨⟨nofun,rfl,trivial⟩,nofun⟩ rfl (Run.cons ⟨rfl,nofun⟩ rfl
      (Run.cons ⟨rfl,nofun⟩ rfl (Run.cons ⟨rfl,nofun⟩ rfl
      (Run.cons ⟨rfl,?_⟩ rfl (Run.nil _))))))),rfl⟩
    intro pid hpid t ht
    cases hpid
    cases ht
  exact ⟨p,hp,hd,(run_orderly hp).1⟩

/-- The second call is on the list of the thread that gave the first one back, and the
thread exits: the call is nowhere, and the flag of the node stays. -/
theorem run_disorderly : ∃ p,Run step (fun p op => op.Allowed p) start
    [.getThread 1,.transaction none (.oneWay 0) 0,.transaction none (.oneWay 0) 64,
      .read 1 true false,.freeBuffer 1 0,.threadExit 1] p∧¬Orderly p 0 := by
  refine ⟨_,Run.cons rfl rfl (Run.cons ⟨nofun,rfl,trivial⟩ rfl
    (Run.cons ⟨nofun,rfl,trivial⟩ rfl (Run.cons rfl rfl (Run.cons rfl rfl
    (Run.cons rfl rfl (Run.nil _)))))),fun h => ?_⟩
  have ⟨spot,hspot,_⟩ := h.place 2 (List.mem_cons_of_mem 1 List.mem_cons_self)
  cases spot with
  | delivered =>
    have hd : 2∈[1] := hspot
    exact absurd hd (by decide)
  | asyncTodo =>
    have ⟨t,ht,_⟩ := hspot
    cases ht
  | todo l =>
    have hlive := h.live 2 l hspot
    have ⟨t,ht,_⟩ := hspot
    cases l with
    | proc => cases ht
    | thread pid =>
      by_cases hpid : pid=1
      · rw [hpid] at ht
        cases ht
      · have hlive : Option.isSome (update (update (update
          (fun _ : ℕ => (none : Option (List Work))) 1 (some [])) 1 (some [_])) 1 none pid)=true :=
          hlive
        rw [update_of_ne hpid,update_of_ne hpid,update_of_ne hpid]
          at hlive
        cases hlive

end ArdroneKernel.BinderAsync
