import Mathlib.Algebra.Order.Ring.Nat
import Mathlib.Data.List.Pairwise

/-!
# Search trees

Binary trees searched by walking down from the root, with elements added at
the end of a walk or changed in place. The walk is given by the turn taken at
every element. Rebalancing is any map that keeps the order of the elements.
-/

namespace ArdroneKernel.SearchTree

/-- Binary trees with an element in every node. -/
inductive Tree (α : Type) where
  /-- The empty tree. -/
  | nil
  /-- A node with its subtrees. -/
  | node (l : Tree α) (x : α) (r : Tree α)

/-- Where a walk goes from an element. -/
inductive Turn where
  /-- To the left subtree. -/
  | left
  /-- The element is the one looked for. -/
  | here
  /-- To the right subtree. -/
  | right
  deriving DecidableEq

/-- The other way. -/
def Turn.flip : Turn → Turn
  | .left => .right
  | .here => .here
  | .right => .left

variable {α : Type}

namespace Tree

/-- The elements in order. -/
def toList : Tree α → List α
  | nil => []
  | node l x r => l.toList++x::r.toList

/-- The element at which a walk stops. -/
def find (dir : α → Turn) : Tree α → Option α
  | nil => none
  | node l x r =>
    match dir x with
    | .left => l.find dir
    | .here => some x
    | .right => r.find dir

/-- Put an element at the end of a walk. -/
def add (dir : α → Turn) (a : α) : Tree α → Tree α
  | nil => node nil a nil
  | node l x r =>
    match dir x with
    | .left => node (l.add dir a) x r
    | .here => node l x r
    | .right => node l x (r.add dir a)

/-- Change the element at which a walk stops. -/
def update (dir : α → Turn) (f : α → α) : Tree α → Tree α
  | nil => nil
  | node l x r =>
    match dir x with
    | .left => node (l.update dir f) x r
    | .here => node l (f x) r
    | .right => node l x (r.update dir f)

/-- The first element. -/
def first : Tree α → Option α
  | nil => none
  | node nil x _ => some x
  | node l _ _ => l.first

/-- The last element. -/
def last : Tree α → Option α
  | nil => none
  | node _ x nil => some x
  | node _ _ r => r.last

/-- The element at the root. -/
def top : Tree α → Option α
  | nil => none
  | node _ x _ => some x

/-- Two trees as one, the first before the second. -/
def join : Tree α → Tree α → Tree α
  | nil,t => t
  | node l x r,t => node l x (r.join t)

/-- Take out the element at which a walk stops. -/
def remove (dir : α → Turn) : Tree α → Tree α
  | nil => nil
  | node l x r =>
    match dir x with
    | .left => node (l.remove dir) x r
    | .here => l.join r
    | .right => node l x (r.remove dir)

/-- Take out an element, wherever it is. -/
def erase [DecidableEq α] (a : α) : Tree α → Tree α
  | nil => nil
  | node l x r => if x=a then (l.erase a).join (r.erase a) else node (l.erase a) x (r.erase a)

/-- The element after one. -/
def next [DecidableEq α] (a : α) (t : Tree α) : Option α := (t.toList.dropWhile (·≠a)).tail.head?

/-- A walk that goes to the left only. -/
def leftmost (dir : α → Turn) : Tree α → Bool
  | nil => true
  | node l x _ =>
    match dir x with
    | .left => l.leftmost dir
    | _ => false

/-- Change every element. -/
def map {β : Type} (f : α → β) : Tree α → Tree β
  | nil => nil
  | node l x r => node (l.map f) (f x) (r.map f)

@[simp] theorem toList_map {β : Type} (f : α → β) (t : Tree α) :
    (t.map f).toList=t.toList.map f := by
  induction t with
  | nil => rfl
  | node l x r ihl ihr => simp [map,toList,ihl,ihr]

end Tree

/-- A rebalancing moves nodes and keeps the order of the elements. -/
structure Rebalance where
  /-- The tree after it. -/
  run : {α : Type} → Tree α → Tree α
  /-- The elements are the same, in the same order. -/
  keeps : ∀ {α : Type} (t : Tree α),(run t).toList=t.toList

/-- Doing nothing is a rebalancing. -/
def Rebalance.none : Rebalance := ⟨id,fun _ => rfl⟩

/-- A walk for one place in an order: everything before the place sends it to
the right, everything after it to the left. -/
structure Guides (r : α → α → Prop) (dir : α → Turn) : Prop where
  left : ∀ {a b},r a b → dir a=.left → dir b=.left
  right : ∀ {a b},r a b → dir b=.right → dir a=.right
  after : ∀ {a b},r a b → dir a=.here → dir b=.left
  before : ∀ {a b},r a b → dir b=.here → dir a=.right

namespace Tree

variable {r : α → α → Prop} {dir : α → Turn} {t : Tree α} {a : α}

/-- The order of a node, taken apart. -/
theorem pairwise_node {l : Tree α} {x : α} :
    (node l x t).toList.Pairwise r ↔ l.toList.Pairwise r∧t.toList.Pairwise r∧
      (∀ y∈l.toList,r y x)∧(∀ y∈t.toList,r x y)∧∀ y∈l.toList,∀ z∈t.toList,r y z := by
  simp only [toList,List.pairwise_append,List.pairwise_cons,List.mem_cons,forall_eq_or_imp]
  constructor
  · intro ⟨hl,⟨hx,ht⟩,hlt⟩
    exact ⟨hl,ht,fun y hy => (hlt y hy).1,hx,fun y hy => (hlt y hy).2⟩
  · intro ⟨hl,ht,hlx,hx,hlt⟩
    exact ⟨hl,⟨hx,ht⟩,fun y hy => ⟨hlx y hy,hlt y hy⟩⟩

/-- A walk in an ordered tree finds the element it looks for. -/
theorem find_iff (g : Guides r dir) (h : t.toList.Pairwise r) (a : α) :
    t.find dir=some a ↔ a∈t.toList∧dir a=.here := by
  induction t with
  | nil => simp [find,toList]
  | node l x t ihl iht =>
    have ⟨hl,ht,hlx,hxt,_⟩ := pairwise_node.mp h
    have hmem : a∈(node l x t).toList ↔ a∈l.toList∨a=x∨a∈t.toList := by simp [toList]
    unfold find
    rw [hmem]
    cases hd : dir x with
    | left =>
      rw [ihl hl]
      constructor
      · exact fun k => ⟨Or.inl k.1,k.2⟩
      · rintro ⟨k|k|k,ha⟩
        · exact ⟨k,ha⟩
        · rw [k,hd] at ha
          cases ha
        · rw [g.left (hxt a k) hd] at ha
          cases ha
    | here =>
      constructor
      · intro k
        cases k
        exact ⟨Or.inr (Or.inl rfl),hd⟩
      · rintro ⟨k|k|k,ha⟩
        · rw [g.before (hlx a k) hd] at ha
          cases ha
        · rw [k]
        · rw [g.after (hxt a k) hd] at ha
          cases ha
    | right =>
      rw [iht ht]
      constructor
      · exact fun k => ⟨Or.inr (Or.inr k.1),k.2⟩
      · rintro ⟨k|k|k,ha⟩
        · rw [g.right (hlx a k) hd] at ha
          cases ha
        · rw [k,hd] at ha
          cases ha
        · exact ⟨k,ha⟩

theorem find_none_iff (g : Guides r dir) (h : t.toList.Pairwise r) :
    t.find dir=none ↔ ∀ a∈t.toList,dir a≠.here := by
  rw [Option.eq_none_iff_forall_ne_some]
  simp only [ne_eq,find_iff g h,not_and]

/-- An update changes the element found and no other. -/
theorem update_split (h : t.find dir=some a) :
    ∃ l1 l2,t.toList=l1++a::l2∧∀ f,(t.update dir f).toList=l1++f a::l2 := by
  induction t with
  | nil => simp [find] at h
  | node l x t ihl iht =>
    unfold find at h
    unfold update
    cases hd : dir x with
    | left =>
      rw [hd] at h
      have ⟨l1,l2,hl,hf⟩ := ihl h
      exact ⟨l1,l2++x::t.toList,by simp [toList,hl],fun f => by simp [toList,hf]⟩
    | here =>
      rw [hd] at h
      cases h
      exact ⟨l.toList,t.toList,rfl,fun f => rfl⟩
    | right =>
      rw [hd] at h
      have ⟨l1,l2,hl,hf⟩ := iht h
      exact ⟨l.toList++x::l1,l2,by simp [toList,hl],fun f => by simp [toList,hf]⟩

theorem toList_join (l t : Tree α) : (l.join t).toList=l.toList++t.toList := by
  induction l with
  | nil => rfl
  | node l x r _ ihr => simp [join,toList,ihr]

/-- All other elements stay, in their order. -/
@[simp] theorem toList_erase [DecidableEq α] (a : α) (t : Tree α) :
    (t.erase a).toList=t.toList.filter (·≠a) := by
  induction t with
  | nil => rfl
  | node l x r ihl ihr =>
    unfold erase
    split
    next h => simp [toList_join,toList,ihl,ihr,h]
    next h => simp [toList,ihl,ihr,h]

/-- The element found is taken out, and no other. -/
theorem remove_split (h : t.find dir=some a) :
    ∃ l1 l2,t.toList=l1++a::l2∧(t.remove dir).toList=l1++l2 := by
  induction t with
  | nil => simp [find] at h
  | node l x t ihl iht =>
    unfold find at h
    unfold remove
    cases hd : dir x with
    | left =>
      rw [hd] at h
      have ⟨l1,l2,hl,hf⟩ := ihl h
      exact ⟨l1,l2++x::t.toList,by simp [toList,hl],by simp [toList,hf]⟩
    | here =>
      rw [hd] at h
      cases h
      exact ⟨l.toList,t.toList,rfl,toList_join l t⟩
    | right =>
      rw [hd] at h
      have ⟨l1,l2,hl,hf⟩ := iht h
      exact ⟨l.toList++x::l1,l2,by simp [toList,hl],by simp [toList,hf]⟩

theorem first_mem (h : t.first=some a) : a∈t.toList := by
  induction t with
  | nil => simp [first] at h
  | node l x r ihl _ =>
    cases l with
    | nil =>
      cases h
      exact List.mem_cons_self
    | node b y c => exact List.mem_append_left _ (ihl h)

/-- An element that is not there is added between two others. -/
theorem add_split (h : t.find dir=none) :
    ∃ l1 l2,t.toList=l1++l2∧∀ a,(t.add dir a).toList=l1++a::l2 := by
  induction t with
  | nil => exact ⟨[],[],rfl,fun a => rfl⟩
  | node l x t ihl iht =>
    unfold find at h
    unfold add
    cases hd : dir x with
    | left =>
      rw [hd] at h
      have ⟨l1,l2,hl,hf⟩ := ihl h
      exact ⟨l1,l2++x::t.toList,by simp [toList,hl],fun a => by simp [toList,hf]⟩
    | here =>
      rw [hd] at h
      cases h
    | right =>
      rw [hd] at h
      have ⟨l1,l2,hl,hf⟩ := iht h
      exact ⟨l.toList++x::l1,l2,by simp [toList,hl],fun a => by simp [toList,hf]⟩

/-- A walk to the left puts the element first. -/
theorem toList_add_of_leftmost (a : α) (h : t.leftmost dir=true) :
    (t.add dir a).toList=a::t.toList := by
  induction t with
  | nil => rfl
  | node l x t ihl _ =>
    unfold leftmost at h
    unfold add
    cases hd : dir x with
    | left =>
      rw [hd] at h
      unfold toList
      rw [ihl h,List.cons_append]
    | here =>
      rw [hd] at h
      cases h
    | right =>
      rw [hd] at h
      cases h

theorem head_append {l : List α} (t : List α) {x : α} :
    (l++x::t).head?=some (l.head?.getD x) := by
  cases l <;> rfl

/-- Such a walk goes to the left at the first element. -/
theorem turn_head_of_leftmost {y : α} (h : t.leftmost dir=true) (hy : t.toList.head?=some y) :
    dir y=.left := by
  induction t with
  | nil => cases hy
  | node l x t ihl _ =>
    unfold leftmost at h
    cases hd : dir x with
    | left =>
      rw [hd] at h
      unfold toList at hy
      rw [head_append] at hy
      cases hl : l.toList.head? with
      | none =>
        rw [hl] at hy
        cases hy
        exact hd
      | some z =>
        rw [hl] at hy
        exact ihl h (hl.trans hy)
    | here =>
      rw [hd] at h
      cases h
    | right =>
      rw [hd] at h
      cases h

/-- Any other walk leaves the first element where it is, in front. -/
theorem head_add_of_not_leftmost (a : α) (h : t.leftmost dir=false) :
    (t.add dir a).toList.head?=t.toList.head? := by
  induction t with
  | nil => cases h
  | node l x t ihl _ =>
    unfold leftmost at h
    unfold add
    cases hd : dir x with
    | left =>
      rw [hd] at h
      unfold toList
      rw [head_append,head_append,ihl h]
    | here => rfl
    | right =>
      unfold toList
      rw [head_append,head_append]

/-- Only the turns at the elements of the tree matter. -/
theorem add_congr {dir' : α → Turn} (a : α) (h : ∀ y∈t.toList,dir y=dir' y) :
    t.add dir a=t.add dir' a := by
  induction t with
  | nil => rfl
  | node l x t ihl iht =>
    have hl := ihl fun y hy => h y (List.mem_append_left _ hy)
    have ht := iht fun y hy => h y (List.mem_append_right _ (List.mem_cons_of_mem _ hy))
    unfold add
    rw [h x (List.mem_append_right _ List.mem_cons_self),hl,ht]

theorem mem_add (h : t.find dir=none) {a y : α} :
    y∈(t.add dir a).toList ↔ y=a∨y∈t.toList := by
  have ⟨l1,l2,hl,hf⟩ := add_split h
  rw [hl,hf]
  simp only [List.mem_append,List.mem_cons]
  tauto

/-- The added element is in its place. -/
theorem add_pairwise (g : Guides r dir) (h : t.toList.Pairwise r) (hf : t.find dir=none)
    (hr : ∀ y∈t.toList,dir y=.right → r y a) (hl : ∀ y∈t.toList,dir y=.left → r a y) :
    (t.add dir a).toList.Pairwise r := by
  induction t with
  | nil => simp [add,toList]
  | node l x t ihl iht =>
    have ⟨hpl,hpt,hlx,hxt,hlt⟩ := pairwise_node.mp h
    have hmem : ∀ y,y∈l.toList∨y=x∨y∈t.toList → y∈(node l x t).toList := by
      intro y hy
      simpa [toList] using hy
    unfold find at hf
    unfold add
    cases hd : dir x with
    | left =>
      rw [hd] at hf
      have k := ihl hpl hf (fun y hy => hr y (hmem y (Or.inl hy)))
        fun y hy => hl y (hmem y (Or.inl hy))
      have hax := hl x (hmem x (Or.inr (Or.inl rfl))) hd
      have hat : ∀ y∈t.toList,r a y := fun y hy =>
        hl y (hmem y (Or.inr (Or.inr hy))) (g.left (hxt y hy) hd)
      refine pairwise_node.mpr ⟨k,hpt,fun y hy => ?_,hxt,fun y hy => ?_⟩
      · cases (mem_add hf).mp hy with
        | inl e => exact e.symm▸hax
        | inr e => exact hlx y e
      · cases (mem_add hf).mp hy with
        | inl e => exact e.symm▸hat
        | inr e => exact hlt y e
    | here =>
      rw [hd] at hf
      cases hf
    | right =>
      rw [hd] at hf
      have k := iht hpt hf (fun y hy => hr y (hmem y (Or.inr (Or.inr hy))))
        fun y hy => hl y (hmem y (Or.inr (Or.inr hy)))
      have hxa := hr x (hmem x (Or.inr (Or.inl rfl))) hd
      have hla : ∀ y∈l.toList,r y a := fun y hy =>
        hr y (hmem y (Or.inl hy)) (g.right (hlx y hy) hd)
      refine pairwise_node.mpr ⟨hpl,k,hlx,fun y hy => ?_,fun y hy z hz => ?_⟩
      · cases (mem_add hf).mp hy with
        | inl e => exact e.symm▸hxa
        | inr e => exact hxt y e
      · cases (mem_add hf).mp hz with
        | inl e => exact e.symm▸hla y hy
        | inr e => exact hlt y hy z e

theorem mem_of_top (h : t.top=some a) : a∈t.toList := by
  cases t with
  | nil => cases h
  | node l x r =>
    cases h
    exact List.mem_append_right _ List.mem_cons_self

theorem exists_top (h : a∈t.toList) : ∃ b,t.top=some b := by
  cases t with
  | nil => cases h
  | node l x r => exact ⟨x,rfl⟩

/-- A walk does not stop where it is not sent. -/
theorem find_eq_none (h : ∀ a∈t.toList,dir a≠.here) : t.find dir=none := by
  induction t with
  | nil => rfl
  | node l x r ihl ihr =>
    have hl := ihl fun a ha => h a (List.mem_append_left _ ha)
    have hr := ihr fun a ha => h a (List.mem_append_right _ (List.mem_cons_of_mem _ ha))
    have hx := h x (List.mem_append_right _ List.mem_cons_self)
    unfold find
    cases hd : dir x with
    | left => exact hl
    | here => exact absurd hd hx
    | right => exact hr

/-- A walk that always takes the wrong turn leaves the place of its element at
the root. -/
theorem find_flip (g : Guides r dir) (h : t.toList.Pairwise r) (a : α) :
    t.find (fun x => (dir x).flip)=some a ↔ t.top=some a∧dir a=.here := by
  cases t with
  | nil => simp [find,top]
  | node l x t =>
    have ⟨_,_,hlx,hxt,_⟩ := pairwise_node.mp h
    unfold find top
    cases hd : dir x with
    | left =>
      have hnone : t.find (fun x => (dir x).flip)=none := find_eq_none fun b hb => by
        rw [g.left (hxt b hb) hd]
        decide
      constructor
      · intro k
        exact absurd (hnone.symm.trans k) (by simp)
      · intro ⟨htop,ha⟩
        cases htop
        rw [hd] at ha
        cases ha
    | here =>
      constructor
      · intro k
        cases k
        exact ⟨rfl,hd⟩
      · exact And.left
    | right =>
      have hnone : l.find (fun x => (dir x).flip)=none := find_eq_none fun b hb => by
        rw [g.right (hlx b hb) hd]
        decide
      constructor
      · intro k
        exact absurd (hnone.symm.trans k) (by simp)
      · intro ⟨htop,ha⟩
        cases htop
        rw [hd] at ha
        cases ha

end Tree

/-- The walk for a key in the order of the keys. -/
theorem guides_of_key {κ : Type} [LinearOrder κ] (key : α → κ) (k : κ) {dir : α → Turn}
    (hl : ∀ y,dir y=.left ↔ k<key y) (hh : ∀ y,dir y=.here ↔ k=key y)
    (hr : ∀ y,dir y=.right ↔ key y<k) : Guides (fun a b => key a<key b) dir where
  left h ha := (hl _).mpr (lt_trans ((hl _).mp ha) h)
  right h hb := (hr _).mpr (lt_trans h ((hr _).mp hb))
  after h ha := (hl _).mpr ((hh _).mp ha▸h)
  before h hb := (hr _).mpr ((hh _).mp hb▸h)

end ArdroneKernel.SearchTree
