import Mathlib.Data.Nat.Basic
import Mathlib.Order.Basic

/-!
# Heaps whose entries know their slot

A binary heap in an array, with the greatest value in the first slot. Each
entry keeps the number of its slot. An entry moves by exchanging its slot with
that of its parent or of a child.
-/

namespace ArdroneKernel.SlotHeap

open Function

variable {α : Type}

/-- The slots of a heap, and the slot that each entry has noted. -/
structure Slots (α : Type) where
  arr : ℕ → α
  pos : α → Option ℕ

section

variable [DecidableEq α]

/-- An entry is put into a slot. -/
def Slots.put (h : Slots α) (i : ℕ) (x : α) : Slots α :=
  ⟨update h.arr i x,update h.pos x (some i)⟩

/-- An entry in one slot takes another slot, whose entry takes its own. -/
def Slots.exchange (h : Slots α) (x : α) (i j : ℕ) : Slots α := (h.put i (h.arr j)).put j x

/-- The slot of a parent. -/
def parent (i : ℕ) : ℕ := (i-1)/2

/-- An entry moves up while it is greater than its parent. -/
def moveUp (val : α → ℕ) (x : α) : ℕ → ℕ → Slots α → Slots α
  | 0, _, h => h
  | fuel+1, i, h =>
    if i=0 then h
    else if val x≤val (h.arr (parent i)) then h
    else moveUp val x fuel (parent i) (h.exchange x i (parent i))

/-- An entry moves down while a child is greater, in place of the greater child. -/
def moveDown (val : α → ℕ) (x : α) (cnt : ℕ) : ℕ → ℕ → Slots α → Slots α
  | 0, _, h => h
  | fuel+1, i, h =>
    let left := 2*i+1
    if cnt≤left then h
    else if val x<val (h.arr left) then
      let child := if left+1< cnt∧val (h.arr left)<val (h.arr (left+1)) then left+1 else left
      moveDown val x cnt fuel child (h.exchange x i child)
    else
      let right := left+1
      if cnt≤right then h
      else if val x<val (h.arr right) then
        moveDown val x cnt fuel right (h.exchange x i right)
      else h

/-- An entry whose value has changed moves up or down. -/
def adjust (val : α → ℕ) (x : α) (cnt i : ℕ) (h : Slots α) : Slots α :=
  if 0< i∧val (h.arr (parent i))<val x then moveUp val x i i h else moveDown val x cnt cnt i h

/-- The entry of a slot leaves the heap, of which `cnt` entries remain: the
last entry takes its slot. -/
def remove (val : α → ℕ) (cnt i : ℕ) (h : Slots α) : Slots α :=
  if i< cnt then adjust val (h.arr cnt) cnt i (h.put i (h.arr cnt)) else h

end

/-! ## Entries and their slots -/

/-- Every entry of the first slots has noted its slot. -/
def Placed (h : Slots α) (cnt : ℕ) : Prop := ∀ i< cnt,h.pos (h.arr i)=some i

/-- An entry is in one of the first slots. -/
def Has (h : Slots α) (cnt : ℕ) (a : α) : Prop := ∃ i< cnt,h.arr i=a

/-- The first slots have the same entries, and no other entry has noted anything new. -/
structure Rearranged (h h' : Slots α) (cnt : ℕ) : Prop where
  mem : ∀ a,Has h' cnt a ↔ Has h cnt a
  other : ∀ a,¬Has h cnt a → h'.pos a=h.pos a

variable {h h' h'' : Slots α} {cnt i j k : ℕ} {x : α} {val : α → ℕ}

theorem Rearranged.refl : Rearranged h h cnt := ⟨fun _ => Iff.rfl,fun _ _ => rfl⟩

theorem Rearranged.trans (h1 : Rearranged h h' cnt) (h2 : Rearranged h' h'' cnt) :
    Rearranged h h'' cnt where
  mem := fun a => (h2.mem a).trans (h1.mem a)
  other := by
    intro a ha
    rw [h2.other a fun hhas => ha ((h1.mem a).mp hhas),h1.other a ha]

theorem Placed.inj (hp : Placed h cnt) (hi : i< cnt) (hj : j< cnt) (heq : h.arr i=h.arr j) :
    i=j := by
  have hpi := hp i hi
  rw [heq,hp j hj] at hpi
  exact (Option.some.inj hpi).symm

variable [DecidableEq α]

theorem exchange_arr (k : ℕ) : (h.exchange x i j).arr k=
    if k=j then x else if k=i then h.arr j else h.arr k := by
  unfold Slots.exchange Slots.put
  dsimp only
  by_cases hkj : k=j
  · rw [hkj,update_self,if_pos rfl]
  · rw [update_of_ne hkj,if_neg hkj]
    by_cases hki : k=i
    · rw [hki,update_self,if_pos rfl]
    · rw [update_of_ne hki,if_neg hki]

theorem exchange_placed (hp : Placed h cnt) (hi : i< cnt) (hj : j< cnt) (hij : i≠j)
    (hx : h.arr i=x) : Placed (h.exchange x i j) cnt := by
  intro k hk
  rw [exchange_arr]
  have hne : h.arr j≠x := fun heq => hij (hp.inj hi hj (hx.trans heq.symm))
  unfold Slots.exchange Slots.put
  dsimp only
  by_cases hkj : k=j
  · rw [if_pos hkj,update_self,hkj]
  · rw [if_neg hkj]
    by_cases hki : k=i
    · rw [if_pos hki,update_of_ne hne,update_self,hki]
    · have hkx : h.arr k≠x := fun heq => hki (hp.inj hk hi (heq.trans hx.symm))
      have hkj' : h.arr k≠h.arr j := fun heq => hkj (hp.inj hk hj heq)
      rw [if_neg hki,update_of_ne hkx,update_of_ne hkj']
      exact hp k hk

theorem exchange_rearranged (hi : i< cnt) (hj : j< cnt) (hx : h.arr i=x) :
    Rearranged h (h.exchange x i j) cnt where
  mem := by
    intro a
    constructor
    · intro ⟨k,hk,heq⟩
      rw [exchange_arr] at heq
      split at heq
      · exact ⟨i,hi,hx.trans heq⟩
      · split at heq
        · exact ⟨j,hj,heq⟩
        · exact ⟨k,hk,heq⟩
    · intro ⟨k,hk,heq⟩
      by_cases hki : k=i
      · refine ⟨j,hj,?_⟩
        rw [exchange_arr,if_pos rfl,←hx,←hki]
        exact heq
      · by_cases hkj : k=j
        · by_cases hij : i=j
          · exact absurd (hkj.trans hij.symm) hki
          · refine ⟨i,hi,?_⟩
            rw [exchange_arr,if_neg hij,if_pos rfl,←hkj]
            exact heq
        · refine ⟨k,hk,?_⟩
          rw [exchange_arr,if_neg hkj,if_neg hki]
          exact heq
  other := by
    intro a ha
    unfold Slots.exchange Slots.put
    dsimp only
    rw [update_of_ne fun heq => ha ⟨i,hi,hx.trans heq.symm⟩,
      update_of_ne fun heq => ha ⟨j,hj,heq.symm⟩]

theorem put_arr (k : ℕ) : (h.put i x).arr k=if k=i then x else h.arr k := by
  unfold Slots.put
  dsimp only
  by_cases hki : k=i
  · rw [hki,update_self,if_pos rfl]
  · rw [update_of_ne hki,if_neg hki]

theorem put_pos {a : α} (ha : a≠x) : (h.put i x).pos a=h.pos a := update_of_ne ha _ _

/-- An entry takes a slot, the others keep theirs. -/
theorem put_placed (hp : ∀ k< cnt,k≠i → h.arr k≠x∧h.pos (h.arr k)=some k) :
    Placed (h.put i x) cnt := by
  intro k hk
  rw [put_arr]
  by_cases hki : k=i
  · rw [if_pos hki,hki]
    exact update_self _ _ _
  · rw [if_neg hki,put_pos (hp k hk hki).1]
    exact (hp k hk hki).2

/-! ## Order -/

/-- A slot below the first has no greater value than its parent. -/
def InOrder (val : α → ℕ) (h : Slots α) (i : ℕ) : Prop := val (h.arr i)≤val (h.arr (parent i))

/-- A heap: the entries know their slots, and no value is greater than that of
its parent. -/
structure IsHeap (val : α → ℕ) (h : Slots α) (cnt : ℕ) : Prop where
  placed : Placed h cnt
  ordered : ∀ i,0< i → i< cnt → InOrder val h i

/-- An entry in a slot may be greater than its parent, but not the entries
below it. -/
structure UpOrder (val : α → ℕ) (h : Slots α) (cnt i : ℕ) : Prop where
  ordered : ∀ k,0<k → k< cnt → k≠i → InOrder val h k
  below : ∀ k,0<k → k< cnt → parent k=i → 0< i → val (h.arr k)≤val (h.arr (parent i))

/-- An entry in a slot may be less than its children, but not the entry above it. -/
structure DownOrder (val : α → ℕ) (h : Slots α) (cnt i : ℕ) : Prop where
  ordered : ∀ k,0<k → k< cnt → parent k≠i → InOrder val h k
  below : ∀ k,0<k → k< cnt → parent k=i → 0< i → val (h.arr k)≤val (h.arr (parent i))

/-- A heap but for one slot, whose entry may have any value. -/
structure Changed (val : α → ℕ) (h : Slots α) (cnt i : ℕ) : Prop where
  placed : Placed h cnt
  ordered : ∀ k,0<k → k< cnt → k≠i → parent k≠i → InOrder val h k
  below : ∀ k,0<k → k< cnt → parent k=i → 0< i → val (h.arr k)≤val (h.arr (parent i))

theorem parent_lt (hi : 0< i) : parent i< i := by
  unfold parent
  omega

omit [DecidableEq α] in
/-- The heap of a state is that of another with the same slots and values. -/
theorem IsHeap.congr {val' : α → ℕ} (hh : IsHeap val h cnt)
    (harr : ∀ k< cnt,h'.arr k=h.arr k) (hpos : ∀ a,Has h cnt a → h'.pos a=h.pos a)
    (hval : ∀ a,Has h cnt a → val' a=val a) : IsHeap val' h' cnt where
  placed := by
    intro k hk
    rw [harr k hk,hpos _ ⟨k,hk,rfl⟩]
    exact hh.placed k hk
  ordered := by
    intro k hk hkc
    have hpc : parent k< cnt := (parent_lt hk).trans hkc
    unfold InOrder
    rw [harr k hkc,harr _ hpc,hval _ ⟨k,hkc,rfl⟩,hval _ ⟨parent k,hpc,rfl⟩]
    exact hh.ordered k hk hkc

omit [DecidableEq α] in
/-- A heap, in which the value of one entry has changed. -/
theorem IsHeap.changed {val' : α → ℕ} (hh : IsHeap val h cnt) (hi : i< cnt)
    (hval : ∀ a,a≠h.arr i → val' a=val a) : Changed val' h cnt i := by
  have hat : ∀ {k : ℕ},k< cnt → k≠i → val' (h.arr k)=val (h.arr k) := fun hk hne =>
    hval _ fun heq => hne (hh.placed.inj hk hi heq)
  refine ⟨hh.placed,fun k hk hkc hki hpk => ?_,fun k hk hkc hpk hpos => ?_⟩
  · unfold InOrder
    rw [hat hkc hki,hat ((parent_lt hk).trans hkc) hpk]
    exact hh.ordered k hk hkc
  · have hlow := parent_lt hk
    have hlow' := parent_lt hpos
    have hup := hh.ordered k hk hkc
    have hup' := hh.ordered i hpos hi
    unfold InOrder at hup hup'
    rw [hpk] at hup
    rw [hat hkc (by omega),hat (hlow'.trans hi) (by omega)]
    exact hup.trans hup'

theorem moveUp_spec (hp : Placed h cnt) (ho : UpOrder val h cnt i) (hi : i< cnt)
    (hx : h.arr i=x) {fuel : ℕ} (hfuel : i≤fuel) :
    IsHeap val (moveUp val x fuel i h) cnt∧Rearranged h (moveUp val x fuel i h) cnt := by
  induction fuel generalizing i h with
  | zero =>
    refine ⟨⟨hp,fun k hk hkc => ho.ordered k hk hkc ?_⟩,Rearranged.refl⟩
    omega
  | succ fuel ih =>
    unfold moveUp
    by_cases hzero : i=0
    · rw [if_pos hzero]
      exact ⟨⟨hp,fun k hk hkc => ho.ordered k hk hkc (by omega)⟩,Rearranged.refl⟩
    rw [if_neg hzero]
    have hpos : 0< i := Nat.pos_of_ne_zero hzero
    by_cases hle : val x≤val (h.arr (parent i))
    · rw [if_pos hle]
      refine ⟨⟨hp,fun k hk hkc => ?_⟩,Rearranged.refl⟩
      by_cases hki : k=i
      · unfold InOrder
        rw [hki,hx]
        exact hle
      · exact ho.ordered k hk hkc hki
    · rw [if_neg hle]
      have hgt := not_le.mp hle
      have hpar := parent_lt hpos
      have hparc := hpar.trans hi
      have harr := fun k => exchange_arr (h := h) (x := x) (i := i) (j := parent i) k
      have hup : UpOrder val (h.exchange x i (parent i)) cnt (parent i) := by
        constructor
        · intro k hk hkc hkp
          unfold InOrder
          rw [harr,harr,if_neg hkp]
          by_cases hki : k=i
          · rw [if_pos hki,hki,if_pos rfl]
            exact hgt.le
          · rw [if_neg hki]
            have hold := ho.ordered k hk hkc hki
            unfold InOrder at hold
            by_cases hpk : parent k=parent i
            · rw [if_pos hpk]
              rw [hpk] at hold
              exact hold.trans hgt.le
            · rw [if_neg hpk]
              by_cases hpi : parent k=i
              · rw [if_pos hpi]
                exact ho.below k hk hkc hpi hpos
              · rw [if_neg hpi]
                exact hold
        · intro k hk hkc hpk hppos
          have hpp := parent_lt hppos
          have htop := ho.ordered (parent i) hppos hparc (by omega)
          unfold InOrder at htop
          have hlow := parent_lt hk
          rw [harr,harr (parent (parent i)),if_neg (show k≠parent i by omega),
            if_neg (show parent (parent i)≠parent i by omega),
            if_neg (show parent (parent i)≠i by omega)]
          by_cases hki : k=i
          · rw [if_pos hki]
            exact htop
          · rw [if_neg hki]
            have hold := ho.ordered k hk hkc hki
            unfold InOrder at hold
            rw [hpk] at hold
            exact hold.trans htop
      have hplaced := exchange_placed hp hi hparc (by omega) hx
      have hat : (h.exchange x i (parent i)).arr (parent i)=x := by rw [harr,if_pos rfl]
      have ⟨hheap,hre⟩ := ih hplaced hup hparc hat (by omega)
      exact ⟨hheap,(exchange_rearranged hi hparc hx).trans hre⟩

/-- An entry takes the place of its greatest child. -/
theorem DownOrder.step (hp : Placed h cnt) (ho : DownOrder val h cnt i) (hi : i< cnt)
    (hx : h.arr i=x) {m : ℕ} (hm : m< cnt) (hpm : parent m=i) (hpos : 0< m)
    (hgt : val x<val (h.arr m))
    (hmax : ∀ k,0<k → k< cnt → parent k=i → val (h.arr k)≤val (h.arr m)) :
    DownOrder val (h.exchange x i m) cnt m∧Placed (h.exchange x i m) cnt∧
      (h.exchange x i m).arr m=x∧Rearranged h (h.exchange x i m) cnt := by
  have him : i< m := hpm▸parent_lt hpos
  have harr := fun k => exchange_arr (h := h) (x := x) (i := i) (j := m) k
  refine ⟨⟨fun k hk hkc hpk => ?_,fun k hk hkc hpk _ => ?_⟩,
    exchange_placed hp hi hm (by omega) hx,by rw [harr,if_pos rfl],
    exchange_rearranged hi hm hx⟩
  · unfold InOrder
    rw [harr,harr (parent k),if_neg hpk]
    by_cases hkm : k=m
    · rw [if_pos hkm,hkm,if_pos hpm]
      exact hgt.le
    · rw [if_neg hkm]
      by_cases hki : k=i
      · have hlt := parent_lt hk
        rw [if_pos hki,if_neg (by omega)]
        rw [hki] at hk ⊢
        exact ho.below m hpos hm hpm hk
      · rw [if_neg hki]
        by_cases hpi : parent k=i
        · rw [if_pos hpi]
          exact hmax k hk hkc hpi
        · rw [if_neg hpi]
          exact ho.ordered k hk hkc hpi
  · have hlt := parent_lt hk
    have hold := ho.ordered k hk hkc (by omega)
    unfold InOrder at hold
    rw [hpk] at hold
    rw [harr,harr (parent m),if_neg (by omega),if_neg (by omega),if_neg (by omega),if_pos hpm]
    exact hold

theorem moveDown_spec (hp : Placed h cnt) (ho : DownOrder val h cnt i) (hi : i< cnt)
    (hx : h.arr i=x) {fuel : ℕ} (hfuel : cnt≤ i+fuel) :
    IsHeap val (moveDown val x cnt fuel i h) cnt∧
      Rearranged h (moveDown val x cnt fuel i h) cnt := by
  have hchild : ∀ {k : ℕ},0<k → parent k=i → k=2*i+1∨k=2*i+2 := by
    intro k hk hpk
    unfold parent at hpk
    omega
  have hstop : (∀ k,0<k → k< cnt → parent k=i → val (h.arr k)≤val x) → IsHeap val h cnt := by
    intro hall
    refine ⟨hp,fun k hk hkc => ?_⟩
    by_cases hpk : parent k=i
    · unfold InOrder
      rw [hpk,hx]
      exact hall k hk hkc hpk
    · exact ho.ordered k hk hkc hpk
  induction fuel generalizing i h with
  | zero => omega
  | succ fuel ih =>
    have hgo : ∀ {m},m< cnt → parent m=i → 0< m → val x<val (h.arr m) →
        (∀ k,0<k → k< cnt → parent k=i → val (h.arr k)≤val (h.arr m)) →
        IsHeap val (moveDown val x cnt fuel m (h.exchange x i m)) cnt∧
          Rearranged h (moveDown val x cnt fuel m (h.exchange x i m)) cnt := by
      intro m hm hpm hpos hgt hmax
      have ⟨hdown,hplaced,hat,hre⟩ := ho.step hp hi hx hm hpm hpos hgt hmax
      have him : i< m := hpm▸parent_lt hpos
      have ⟨hheap,hre'⟩ := ih hplaced hdown hm hat (by omega) (fun {k} hk hpk => by
        unfold parent at hpk
        omega) fun hall => by
          refine ⟨hplaced,fun k hk hkc => ?_⟩
          by_cases hpk : parent k=m
          · unfold InOrder
            rw [hpk,hat]
            exact hall k hk hkc hpk
          · exact hdown.ordered k hk hkc hpk
      exact ⟨hheap,hre.trans hre'⟩
    have hleft : parent (2*i+1)=i := by
      unfold parent
      omega
    have hright : parent (2*i+1+1)=i := by
      unfold parent
      omega
    unfold moveDown
    by_cases hnone : cnt≤2*i+1
    · rw [if_pos hnone]
      refine ⟨hstop fun k hk hkc hpk => ?_,Rearranged.refl⟩
      rcases hchild hk hpk with heq|heq <;> omega
    rw [if_neg hnone]
    by_cases hltL : val x<val (h.arr (2*i+1))
    · rw [if_pos hltL]
      by_cases hbig : 2*i+1+1< cnt∧val (h.arr (2*i+1))<val (h.arr (2*i+1+1))
      · rw [if_pos hbig]
        refine hgo hbig.1 hright (by omega) (hltL.trans hbig.2) fun k hk hkc hpk => ?_
        rcases hchild hk hpk with heq|heq
        · rw [heq]
          exact hbig.2.le
        · rw [heq]
      · rw [if_neg hbig]
        refine hgo (by omega) hleft (by omega) hltL fun k hk hkc hpk => ?_
        rcases hchild hk hpk with heq|heq
        · rw [heq]
        · rw [heq]
          by_contra hgt
          exact hbig ⟨by omega,not_le.mp hgt⟩
    · rw [if_neg hltL]
      by_cases hlast : cnt≤2*i+1+1
      · rw [if_pos hlast]
        refine ⟨hstop fun k hk hkc hpk => ?_,Rearranged.refl⟩
        rcases hchild hk hpk with heq|heq
        · rw [heq]
          exact not_lt.mp hltL
        · omega
      rw [if_neg hlast]
      by_cases hltR : val x<val (h.arr (2*i+1+1))
      · rw [if_pos hltR]
        refine hgo (by omega) hright (by omega) hltR fun k hk hkc hpk => ?_
        rcases hchild hk hpk with heq|heq
        · rw [heq]
          exact (not_lt.mp hltL).trans hltR.le
        · rw [heq]
      · rw [if_neg hltR]
        refine ⟨hstop fun k hk hkc hpk => ?_,Rearranged.refl⟩
        rcases hchild hk hpk with heq|heq
        · rw [heq]
          exact not_lt.mp hltL
        · rw [heq]
          exact not_lt.mp hltR

/-- A changed entry finds its place again. -/
theorem adjust_spec (hc : Changed val h cnt i) (hi : i< cnt) (hx : h.arr i=x) :
    IsHeap val (adjust val x cnt i h) cnt∧Rearranged h (adjust val x cnt i h) cnt := by
  unfold adjust
  by_cases hup : 0< i∧val (h.arr (parent i))<val x
  · rw [if_pos hup]
    refine moveUp_spec hc.placed ⟨fun k hk hkc hki => ?_,hc.below⟩ hi hx le_rfl
    by_cases hpk : parent k=i
    · unfold InOrder
      rw [hpk,hx]
      exact (hc.below k hk hkc hpk hup.1).trans hup.2.le
    · exact hc.ordered k hk hkc hki hpk
  · rw [if_neg hup]
    refine moveDown_spec hc.placed ⟨fun k hk hkc hpk => ?_,hc.below⟩ hi hx
      (Nat.le_add_left _ _)
    by_cases hki : k=i
    · unfold InOrder
      rw [hki,hx]
      rw [hki] at hk
      exact not_lt.mp fun hlt => hup ⟨hk,hlt⟩
    · exact hc.ordered k hk hkc hki hpk

/-! ## Entries that come and go -/

/-- The heap after an operation that has moved nothing outside the heap but
one entry. -/
structure Result (val : α → ℕ) (h h' : Slots α) (cnt cnt' : ℕ) (x : α)
    (has : α → Prop) : Prop where
  heap : IsHeap val h' cnt'
  mem : ∀ a,Has h' cnt' a ↔ has a
  other : ∀ a,a≠x → ¬Has h cnt a → h'.pos a=h.pos a

/-- A new entry goes to the bottom and moves up. -/
theorem push_spec (hh : IsHeap val h cnt) (hx : ¬Has h cnt x) :
    Result val h (moveUp val x cnt cnt (h.put cnt x)) cnt (cnt+1) x
      fun a => a=x∨Has h cnt a := by
  have hplaced : Placed (h.put cnt x) (cnt+1) :=
    put_placed fun k hk hne => by
      have hkc : k< cnt := by omega
      exact ⟨fun heq => hx ⟨k,hkc,heq⟩,hh.placed k hkc⟩
  have hup : UpOrder val (h.put cnt x) (cnt+1) cnt := by
    refine ⟨fun k hk hkc hne => ?_,fun k hk hkc hpk _ => ?_⟩
    · have hlow := parent_lt hk
      unfold InOrder
      rw [put_arr,put_arr,if_neg hne,if_neg (by omega)]
      exact hh.ordered k hk (by omega)
    · have hlow := parent_lt hk
      omega
  have hat : (h.put cnt x).arr cnt=x := by rw [put_arr,if_pos rfl]
  have ⟨hheap,hre⟩ := moveUp_spec hplaced hup (Nat.lt_succ_self _) hat le_rfl
  have hput : ∀ a,Has (h.put cnt x) (cnt+1) a ↔ a=x∨Has h cnt a := by
    intro a
    constructor
    · intro ⟨k,hk,heq⟩
      rw [put_arr] at heq
      by_cases hkc : k=cnt
      · rw [if_pos hkc] at heq
        exact Or.inl heq.symm
      · rw [if_neg hkc] at heq
        exact Or.inr ⟨k,by omega,heq⟩
    · rintro (heq|⟨k,hk,heq⟩)
      · exact ⟨cnt,Nat.lt_succ_self _,hat.trans heq.symm⟩
      · refine ⟨k,by omega,?_⟩
        rw [put_arr,if_neg (by omega)]
        exact heq
  refine ⟨hheap,fun a => (hre.mem a).trans (hput a),fun a hax ha => ?_⟩
  rw [hre.other a fun hhas => ((hput a).mp hhas).elim hax ha,put_pos hax]

theorem put_has (hp : Placed h cnt) (hi : i< cnt) (a : α) :
    Has (h.put i x) cnt a ↔ a=x∨Has h cnt a∧a≠h.arr i := by
  constructor
  · intro ⟨k,hk,heq⟩
    rw [put_arr] at heq
    by_cases hki : k=i
    · rw [if_pos hki] at heq
      exact Or.inl heq.symm
    · rw [if_neg hki] at heq
      exact Or.inr ⟨⟨k,hk,heq⟩,fun heq' => hki (hp.inj hk hi (heq.trans heq'))⟩
  · rintro (heq|⟨⟨k,hk,heq⟩,hne⟩)
    · refine ⟨i,hi,?_⟩
      rw [put_arr,if_pos rfl]
      exact heq.symm
    · refine ⟨k,hk,?_⟩
      rw [put_arr,if_neg fun hki => hne (by rw [←heq,hki])]
      exact heq

/-- A greater entry takes the slot of another, which forgets its own, and moves up. -/
theorem evict_spec (hh : IsHeap val h cnt) (hi : i< cnt) (hx : ¬Has h cnt x)
    (hgt : val (h.arr i)<val x) (harr : h'.arr=h.arr)
    (hpos : ∀ a,a≠h.arr i → h'.pos a=h.pos a) :
    Result val h (moveUp val x i i (h'.put i x)) cnt cnt x
      fun a => a=x∨Has h cnt a∧a≠h.arr i := by
  have hput : ∀ k,(h'.put i x).arr k=if k=i then x else h.arr k := by
    intro k
    rw [put_arr,harr]
  have hplaced : Placed (h'.put i x) cnt := put_placed fun k hk hne => by
    rw [harr]
    refine ⟨fun heq => hx ⟨k,hk,heq⟩,?_⟩
    rw [hpos _ fun heq => hne (hh.placed.inj hk hi heq)]
    exact hh.placed k hk
  have hup : UpOrder val (h'.put i x) cnt i := by
    refine ⟨fun k hk hkc hne => ?_,fun k hk hkc hpk hipos => ?_⟩
    · have hold := hh.ordered k hk hkc
      unfold InOrder at hold ⊢
      rw [hput,hput,if_neg hne]
      by_cases hpk : parent k=i
      · rw [if_pos hpk]
        rw [hpk] at hold
        exact hold.trans hgt.le
      · rw [if_neg hpk]
        exact hold
    · have hlow := parent_lt hk
      have hlow' := parent_lt hipos
      have hold := hh.ordered k hk hkc
      have hold' := hh.ordered i hipos hi
      unfold InOrder at hold hold'
      rw [hpk] at hold
      rw [hput,hput,if_neg (show k≠i by omega),if_neg (show parent i≠i by omega)]
      exact hold.trans hold'
  have hat : (h'.put i x).arr i=x := by rw [hput,if_pos rfl]
  have ⟨hheap,hre⟩ := moveUp_spec hplaced hup hi hat le_rfl
  have hmem : ∀ a,Has (h'.put i x) cnt a ↔ a=x∨Has h cnt a∧a≠h.arr i := by
    intro a
    rw [←put_has hh.placed hi]
    unfold Has
    simp only [hput,put_arr]
  refine ⟨hheap,fun a => (hre.mem a).trans (hmem a),fun a hax ha => ?_⟩
  rw [hre.other a fun hhas => ((hmem a).mp hhas).elim hax fun hold => ha hold.1,put_pos hax,
    hpos a fun heq => ha ⟨i,hi,heq.symm⟩]

/-- A new entry of the same value takes the slot of another. -/
theorem replace_spec (hh : IsHeap val h cnt) (hi : i< cnt) (hx : ¬Has h cnt x)
    (heq : val x=val (h.arr i)) :
    Result val h (h.put i x) cnt cnt x fun a => a=x∨Has h cnt a∧a≠h.arr i := by
  have hval : ∀ k,val ((h.put i x).arr k)=val (h.arr k) := by
    intro k
    rw [put_arr]
    by_cases hki : k=i
    · rw [if_pos hki,hki,heq]
    · rw [if_neg hki]
  refine ⟨⟨put_placed fun k hk _ => ⟨fun heq => hx ⟨k,hk,heq⟩,hh.placed k hk⟩,
    fun k hk hkc => ?_⟩,put_has hh.placed hi,fun a hax _ => put_pos hax⟩
  unfold InOrder
  rw [hval,hval]
  exact hh.ordered k hk hkc

/-- An entry leaves, also when its value has just changed. -/
theorem remove_spec (hc : Changed val h (cnt+1) i) (hi : i<cnt+1) (hx : h.arr i=x) :
    Result val h (remove val cnt i h) (cnt+1) cnt x fun a => Has h (cnt+1) a∧a≠x := by
  have hother : ∀ a,a≠x → ∀ {k : ℕ},k<cnt+1 → h.arr k=a → k≠i := by
    intro a ha k _ heq hki
    exact ha (by rw [←heq,hki,hx])
  unfold remove
  by_cases hlast : i< cnt
  · rw [if_pos hlast]
    have harr := fun k => put_arr (h := h) (i := i) (x := h.arr cnt) k
    have hplaced : Placed (h.put i (h.arr cnt)) cnt := put_placed fun k hk _ => by
      refine ⟨fun heq => ?_,hc.placed k (by omega)⟩
      have := hc.placed.inj (by omega) (Nat.lt_succ_self _) heq
      omega
    have hchanged : Changed val (h.put i (h.arr cnt)) cnt i := by
      refine ⟨hplaced,fun k hk hkc hki hpk => ?_,fun k hk hkc hpk hpos => ?_⟩
      · unfold InOrder
        rw [harr,harr,if_neg hki,if_neg hpk]
        exact hc.ordered k hk (by omega) hki hpk
      · have hlow := parent_lt hk
        have hlow' := parent_lt hpos
        rw [harr,harr,if_neg (show k≠i by omega),if_neg (show parent i≠i by omega)]
        exact hc.below k hk (by omega) hpk hpos
    have hat : (h.put i (h.arr cnt)).arr i=h.arr cnt := by rw [harr,if_pos rfl]
    have ⟨hheap,hre⟩ := adjust_spec hchanged hlast hat
    have hput : ∀ a,Has (h.put i (h.arr cnt)) cnt a ↔ Has h (cnt+1) a∧a≠x := by
      intro a
      constructor
      · intro ⟨k,hk,heq⟩
        rw [harr] at heq
        by_cases hki : k=i
        · rw [if_pos hki] at heq
          refine ⟨⟨cnt,Nat.lt_succ_self _,heq⟩,fun hax => ?_⟩
          have := hc.placed.inj (Nat.lt_succ_self _) hi (heq.trans (hax.trans hx.symm))
          omega
        · rw [if_neg hki] at heq
          refine ⟨⟨k,by omega,heq⟩,fun hax => ?_⟩
          exact hki (hc.placed.inj (by omega) hi (heq.trans (hax.trans hx.symm)))
      · intro ⟨⟨k,hk,heq⟩,hax⟩
        have hki := hother a hax hk heq
        by_cases hkc : k=cnt
        · refine ⟨i,hlast,?_⟩
          rw [harr,if_pos rfl,←hkc]
          exact heq
        · refine ⟨k,by omega,?_⟩
          rw [harr,if_neg hki]
          exact heq
    refine ⟨hheap,fun a => (hre.mem a).trans (hput a),fun a hax ha => ?_⟩
    rw [hre.other a fun hhas => ha ((hput a).mp hhas).1,
      put_pos fun heq => ha ⟨cnt,Nat.lt_succ_self _,heq.symm⟩]
  · rw [if_neg hlast]
    refine ⟨⟨fun k hk => hc.placed k (by omega),fun k hk hkc => ?_⟩,fun a => ⟨?_,?_⟩,
      fun _ _ _ => rfl⟩
    · have hlow := parent_lt hk
      exact hc.ordered k hk (by omega) (by omega) (by omega)
    · intro ⟨k,hk,heq⟩
      refine ⟨⟨k,by omega,heq⟩,fun hax => ?_⟩
      have := hc.placed.inj (by omega) hi (heq.trans (hax.trans hx.symm))
      omega
    · intro ⟨⟨k,hk,heq⟩,hax⟩
      have hki := hother a hax hk heq
      exact ⟨k,by omega,heq⟩

end ArdroneKernel.SlotHeap
