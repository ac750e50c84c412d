import ArdroneKernel.AndroidAlarm
import Mathlib.Data.List.Nodup

/-!
# Queues of alarms

An alarm that is started, cancelled or called leaves its queue in order of
expiry, with the leftmost alarm first, and a timer that is set for the first
alarm goes off no later than any alarm of the queue expires.
-/

namespace ArdroneKernel.AndroidAlarm

open SearchTree

variable {alarm alarm' : ℕ → Alarm} {type : AlarmType} {base : AlarmQueue} {a b : ℕ}

/-- A queue in order. -/
structure Ordered (alarm : ℕ → Alarm) (type : AlarmType) (base : AlarmQueue) : Prop where
  sorted : base.alarms.toList.Pairwise fun a b => (alarm a).expires≤(alarm b).expires
  nodup : base.alarms.toList.Nodup
  own : ∀ a∈base.alarms.toList,(alarm a).type=type
  first : base.first=base.alarms.toList.head?
  range : ∀ a∈base.alarms.toList,(alarm a).softexpires≤(alarm a).expires
  /-- No alarm may be called before the epoch. -/
  nonneg : ∀ a∈base.alarms.toList,0≤base.delta+(alarm a).softexpires

/-- The timer goes off no later than the alarms expire. -/
def Timely (alarm : ℕ → Alarm) (base : AlarmQueue) : Prop :=
  ∀ a∈base.alarms.toList,base.timer.expires≤base.delta+(alarm a).expires

/-- Only the alarms of the queue matter, and not its timer. -/
theorem Ordered.congr {base' : AlarmQueue} (h : Ordered alarm type base)
    (hsame : ∀ a∈base.alarms.toList,alarm' a=alarm a) (halarms : base'.alarms=base.alarms)
    (hfirst : base'.first=base.first) (hdelta : base'.delta=base.delta) :
    Ordered alarm' type base' := by
  constructor
  · rw [halarms]
    exact h.sorted.imp_of_mem fun ha hb hle => by rwa [hsame _ ha,hsame _ hb]
  · exact halarms▸h.nodup
  · intro a ha
    rw [halarms] at ha
    rw [hsame a ha]
    exact h.own a ha
  · rw [hfirst,halarms]
    exact h.first
  · intro a ha
    rw [halarms] at ha
    rw [hsame a ha]
    exact h.range a ha
  · intro a ha
    rw [halarms] at ha
    rw [hsame a ha,hdelta]
    exact h.nonneg a ha

/-- The first alarm expires first. -/
theorem Ordered.first_le (h : Ordered alarm type base) (ha : base.first=some a)
    (hb : b∈base.alarms.toList) : (alarm a).expires≤(alarm b).expires := by
  have hsorted := h.sorted
  rw [h.first] at ha
  cases hl : base.alarms.toList with
  | nil =>
    rw [hl] at hb
    cases hb
  | cons c l =>
    rw [hl] at ha hb hsorted
    cases ha
    rcases List.mem_cons.mp hb with hb|hb
    · subst hb
      exact Int.le_refl _
    · exact (List.pairwise_cons.mp hsorted).1 b hb

theorem Ordered.first_mem (h : Ordered alarm type base) (ha : base.first=some a) :
    a∈base.alarms.toList := List.mem_of_mem_head? (h.first.symm.trans ha)

/-- Without the alarm, the one after it is first if it was first. -/
theorem head_filter (t : SearchTree.Tree ℕ) (h : t.toList.Nodup) (a : ℕ) :
    (t.toList.filter (·≠a)).head?=if t.toList.head?=some a then t.next a else t.toList.head? := by
  unfold Tree.next
  cases hl : t.toList with
  | nil => simp
  | cons x l =>
    rw [hl] at h
    have hx := (List.nodup_cons.mp h).1
    by_cases he : x=a
    · subst he
      have hall : l.filter (·≠x)=l := List.filter_eq_self.mpr fun y hy =>
        decide_eq_true fun e => hx (e▸hy)
      rw [List.filter_cons_of_neg (by simp),hall,List.dropWhile_cons_of_neg (by simp),List.head?_cons,
        if_pos rfl]
      rfl
    · have hne : ¬(x::l).head?=some a := fun e => he (Option.some.inj e)
      rw [if_neg hne,List.filter_cons_of_pos (by simpa using he)]
      rfl

/-- An alarm is taken out. -/
theorem Ordered.takeOut (h : Ordered alarm type base) (rebalance : Rebalance) (a : ℕ) :
    Ordered alarm type {base with
      alarms := rebalance.run (base.alarms.erase a)
      first := if base.first=some a then base.alarms.next a else base.first} := by
  have hlist : (rebalance.run (base.alarms.erase a)).toList=base.alarms.toList.filter (·≠a) := by
    rw [rebalance.keeps,Tree.toList_erase]
  have hmem : ∀ b∈(rebalance.run (base.alarms.erase a)).toList,b∈base.alarms.toList := by
    intro b hb
    rw [hlist] at hb
    exact List.mem_of_mem_filter hb
  refine ⟨?_,?_,fun b hb => h.own b (hmem b hb),?_,fun b hb => h.range b (hmem b hb),
    fun b hb => h.nonneg b (hmem b hb)⟩
  · rw [hlist]
    exact h.sorted.filter _
  · rw [hlist]
    exact h.nodup.filter _
  · rw [hlist,head_filter _ h.nodup,h.first]

/-! ## Enqueueing -/

/-- The tree before the walk. -/
def unlinked (rebalance : Rebalance) (t : SearchTree.Tree ℕ) (a : ℕ) : SearchTree.Tree ℕ :=
  if a∈t.toList then rebalance.run (t.erase a) else t

theorem toList_unlinked (rebalance : Rebalance) (t : SearchTree.Tree ℕ) (a : ℕ) :
    (unlinked rebalance t a).toList=t.toList.filter (·≠a) := by
  unfold unlinked
  split
  · rw [rebalance.keeps,Tree.toList_erase]
  next hmem =>
    refine (List.filter_eq_self.mpr fun b hb => ?_).symm
    have hne : b≠a := fun e => hmem (e▸hb)
    exact decide_eq_true hne

/-- The walk of an alarm. -/
def turn (alarm : ℕ → Alarm) (expires : ℤ) (entry : ℕ) : Turn :=
  if expires<(alarm entry).expires then .left else .right

theorem find_turn (alarm : ℕ → Alarm) (expires : ℤ) (t : SearchTree.Tree ℕ) : t.find (turn alarm expires)=none := by
  induction t with
  | nil => rfl
  | node l x r ihl ihr =>
    unfold Tree.find
    unfold turn
    by_cases h : expires<(alarm x).expires
    · rw [if_pos h]
      exact ihl
    · rw [if_neg h]
      exact ihr

theorem turn_left {expires : ℤ} (h : turn alarm expires b=.left) :
    expires<(alarm b).expires := by
  unfold turn at h
  split at h
  next hlt => exact hlt
  · cases h

theorem turn_right {expires : ℤ} (h : turn alarm expires b=.right) :
    (alarm b).expires≤expires := by
  unfold turn at h
  split at h
  · cases h
  next hle => exact Int.not_lt.mp hle

theorem guides_turn (expires : ℤ) :
    Guides (fun a b => (alarm a).expires≤(alarm b).expires) (turn alarm expires) where
  left h ha := by
    exact if_pos (Int.lt_of_lt_of_le (turn_left ha) h)
  right h hb := by
    exact if_neg (Int.not_lt.mpr (Int.le_trans h (turn_right hb)))
  after h ha := by
    unfold turn at ha
    split at ha <;> cases ha
  before h hb := by
    unfold turn at hb
    split at hb <;> cases hb

/-- A tree with the alarm linked, in order, and what is first. -/
theorem Ordered.link (h : Ordered alarm type base) (rebalance : Rebalance) {new : Alarm}
    (hsame : ∀ b,b≠a → alarm' b=alarm b) (ha : alarm' a=new) (htype : new.type=type)
    (hrange : new.softexpires≤new.expires) (hnonneg : 0≤base.delta+new.softexpires) :
    (∀ b,b∈(rebalance.run ((unlinked rebalance base.alarms a).add
        (turn alarm' new.expires) a)).toList ↔ b=a∨b∈base.alarms.toList∧b≠a)∧
    Ordered alarm' type {base with
      alarms := rebalance.run ((unlinked rebalance base.alarms a).add (turn alarm' new.expires) a)
      first :=
        if (unlinked rebalance base.alarms a).leftmost (turn alarm' new.expires) then some a
        else if base.first=some a then base.alarms.next a else base.first}∧
    ((unlinked rebalance base.alarms a).leftmost (turn alarm' new.expires)=false →
      ∃ b∈base.alarms.toList,b≠a∧(alarm b).expires≤new.expires)∧
    ((unlinked rebalance base.alarms a).leftmost (turn alarm' new.expires)=true →
      ∀ b∈base.alarms.toList,b≠a → new.expires<(alarm b).expires) := by
  have hrest := toList_unlinked rebalance base.alarms a
  have hfind := find_turn alarm' new.expires (unlinked rebalance base.alarms a)
  have hin : ∀ b,b∈(unlinked rebalance base.alarms a).toList ↔ b∈base.alarms.toList∧b≠a := by
    intro b
    rw [hrest,List.mem_filter]
    simp
  have hmem : ∀ b,b∈(rebalance.run ((unlinked rebalance base.alarms a).add
      (turn alarm' new.expires) a)).toList ↔ b=a∨b∈base.alarms.toList∧b≠a := by
    intro b
    rw [rebalance.keeps,Tree.mem_add hfind,hin]
  have hsortedRest : (unlinked rebalance base.alarms a).toList.Pairwise
      fun b c => (alarm' b).expires≤(alarm' c).expires := by
    rw [hrest]
    refine (h.sorted.filter _).imp_of_mem fun hb hc hle => ?_
    have hb := of_decide_eq_true (List.mem_filter.mp hb).2
    have hc := of_decide_eq_true (List.mem_filter.mp hc).2
    rwa [hsame _ hb,hsame _ hc]
  have hsorted := Tree.add_pairwise (guides_turn new.expires) (a := a) hsortedRest hfind
    (fun b _ hb => by rw [ha]; exact turn_right hb)
    (fun b _ hb => by rw [ha]; exact Int.le_of_lt (turn_left hb))
  have hother : ∀ b,b∈base.alarms.toList∧b≠a → alarm' b=alarm b := fun b hb => hsame b hb.2
  refine ⟨hmem,⟨?_,?_,fun b hb => ?_,?_,fun b hb => ?_,fun b hb => ?_⟩,fun hleft => ?_,
    fun hleft b hb hne => ?_⟩
  · rw [rebalance.keeps]
    exact hsorted
  · rw [rebalance.keeps]
    have ⟨l1,l2,hl,hf⟩ := Tree.add_split hfind
    rw [hf a]
    have hnodup : (l1++l2).Nodup := by
      rw [← hl,hrest]
      exact h.nodup.filter _
    have hnot : a∉l1++l2 := by
      rw [← hl]
      exact fun hmem => ((hin a).mp hmem).2 rfl
    exact List.nodup_middle.mpr (List.nodup_cons.mpr ⟨hnot,hnodup⟩)
  · rcases (hmem b).mp hb with rfl|hb
    · rw [ha]
      exact htype
    · rw [hother b hb]
      exact h.own b hb.1
  · rw [rebalance.keeps]
    cases hleft : (unlinked rebalance base.alarms a).leftmost (turn alarm' new.expires) with
    | true =>
      rw [Tree.toList_add_of_leftmost a hleft]
      rfl
    | false =>
      rw [Tree.head_add_of_not_leftmost a hleft,hrest,head_filter _ h.nodup,h.first]
      rfl
  · rcases (hmem b).mp hb with rfl|hb
    · rw [ha]
      exact hrange
    · rw [hother b hb]
      exact h.range b hb.1
  · rcases (hmem b).mp hb with rfl|hb
    · rw [ha]
      exact hnonneg
    · rw [hother b hb]
      exact h.nonneg b hb.1
  · have hhead := Tree.head_add_of_not_leftmost a hleft
    cases hl : (unlinked rebalance base.alarms a).toList with
    | nil =>
      have hadded := (Tree.mem_add hfind (a := a) (y := a)).mpr (Or.inl rfl)
      rw [hl,List.head?_nil,List.head?_eq_none_iff] at hhead
      rw [hhead] at hadded
      cases hadded
    | cons b l =>
      have hb := (hin b).mp (hl▸List.mem_cons_self)
      rw [hl] at hhead
      refine ⟨b,hb.1,hb.2,?_⟩
      -- The first alarm of the tree is still in front of the new one.
      have ⟨l',hl'⟩ : ∃ l',((unlinked rebalance base.alarms a).add
          (turn alarm' new.expires) a).toList=b::l' := List.head?_eq_some_iff.mp hhead
      have hadded := (Tree.mem_add hfind (a := a) (y := a)).mpr (Or.inl rfl)
      rw [hl'] at hadded hsorted
      rcases List.mem_cons.mp hadded with e|hmem
      · exact absurd e.symm hb.2
      · have := (List.pairwise_cons.mp hsorted).1 a hmem
        rwa [ha,hother b hb] at this
  · have hmemb := (hin b).mpr ⟨hb,hne⟩
    cases hl : (unlinked rebalance base.alarms a).toList with
    | nil =>
      rw [hl] at hmemb
      cases hmemb
    | cons c l =>
      have hc := (hin c).mp (hl▸List.mem_cons_self)
      have hhead : (unlinked rebalance base.alarms a).toList.head?=some c := by rw [hl,List.head?_cons]
      have hlt := turn_left (Tree.turn_head_of_leftmost hleft hhead)
      rw [hother c hc] at hlt
      rw [hl] at hmemb hsortedRest
      rcases List.mem_cons.mp hmemb with e|hmemb
      · rwa [e]
      · have hle := (List.pairwise_cons.mp hsortedRest).1 b hmemb
        rw [hother c hc,hother b ⟨hb,hne⟩] at hle
        exact Int.lt_of_lt_of_le hlt hle

end ArdroneKernel.AndroidAlarm
