import ArdroneKernel.BinderBuffers
import ArdroneKernel.Execution
import Mathlib.Data.List.Perm.Basic

/-!
# The space of a binder process

The buffers tile the space, a page is there exactly if a header or the data of
an allocated buffer lies on it, and the trees hold the free and the allocated
buffers. Every call keeps this, and none reads a header that is not there.
-/

namespace ArdroneKernel.BinderBuffers

open SearchTree Function

variable {size : ℕ} {b : Buffer} {xs ys pre post : List Buffer} {x : Buffer}

/-! ## Tiling -/

/-- Every buffer has room for its header before the next one starts. -/
def Tiled (size : ℕ) : List Buffer → Prop
  | [] => True
  | b::bs => b.addr+HEADER≤ startOf size bs∧Tiled size bs

theorem startOf_append (xs ys : List Buffer) :
    startOf size (xs++ys)=startOf (startOf size ys) xs := by
  cases xs <;> rfl

theorem tiled_append : Tiled size (xs++ys) ↔ Tiled (startOf size ys) xs∧Tiled size ys := by
  induction xs with
  | nil => exact Iff.of_eq (true_and _).symm
  | cons b bs ih =>
    change b.addr+HEADER≤ startOf size (bs++ys)∧Tiled size (bs++ys) ↔ (_∧_)∧_
    rw [ih,startOf_append,and_assoc]

theorem Tiled.start_le (h : Tiled size xs) : startOf size xs≤ size := by
  induction xs with
  | nil => exact le_rfl
  | cons b bs ih =>
    have := ih h.2
    have := h.1
    change b.addr≤ size
    omega

theorem Tiled.bounds (h : Tiled size xs) (hb : b∈xs) :
    startOf size xs≤b.addr∧b.addr+HEADER≤ size := by
  induction xs with
  | nil => cases hb
  | cons x bs ih =>
    have hle := h.2.start_le
    have hx := h.1
    rcases List.mem_cons.mp hb with rfl|hb
    · exact ⟨le_rfl,by omega⟩
    · have ⟨h1,h2⟩ := ih h.2 hb
      refine ⟨?_,h2⟩
      change x.addr≤b.addr
      omega

/-- The buffers around one of them. -/
structure Around (size : ℕ) (pre : List Buffer) (b : Buffer) (post : List Buffer) : Prop where
  pre : Tiled b.addr pre
  room : b.addr+HEADER≤ startOf size post
  post : Tiled size post

theorem around_iff : Tiled size (pre++b::post) ↔ Around size pre b post := by
  rw [tiled_append]
  exact ⟨fun h => ⟨h.1,h.2.1,h.2.2⟩,fun h => ⟨h.pre,h.room,h.post⟩⟩

theorem Around.before (h : Around size pre b post) (hx : x∈pre) :
    x.addr+HEADER≤b.addr := (h.pre.bounds hx).2

theorem Around.after (h : Around size pre b post) (hx : x∈post) :
    b.addr+HEADER≤x.addr := h.room.trans (h.post.bounds hx).1

theorem Around.ne_before (h : Around size pre b post) (hx : x∈pre) :
    x.addr≠b.addr := by
  have := h.before hx
  have hh : HEADER=40 := rfl
  omega

theorem Around.ne_after (h : Around size pre b post) (hx : x∈post) :
    x.addr≠b.addr := by
  have := h.after hx
  have hh : HEADER=40 := rfl
  omega

theorem tiled_addrs (h : Tiled size xs) : (xs.map Buffer.addr).Pairwise (·<·) := by
  induction xs with
  | nil => exact List.Pairwise.nil
  | cons b bs ih =>
    have ha : Around size [] b bs := ⟨trivial,h.1,h.2⟩
    refine List.pairwise_cons.mpr ⟨fun a hm => ?_,ih h.2⟩
    have ⟨x,hx,heq⟩ := List.mem_map.mp hm
    have := ha.after hx
    have hh : HEADER=40 := rfl
    omega

/-! ## Reading and changing the list -/

section

variable (h : ∀ x∈pre,x.addr≠b.addr)
include h

theorem sizeIn_here : sizeIn size (pre++b::post) b.addr=startOf size post-(b.addr+HEADER) := by
  induction pre with
  | nil => exact if_pos rfl
  | cons x pre ih =>
    have ⟨hx,hpre⟩ := List.forall_mem_cons.mp h
    exact (if_neg hx).trans (ih hpre)

theorem headerAt_here : headerAt (pre++b::post) b.addr=some b := by
  unfold headerAt
  rw [List.find?_append,List.find?_eq_none.mpr (fun x hx => by simpa using h x hx)]
  simp

theorem nextOf_here : nextOf (pre++b::post) b.addr=post.head? := by
  induction pre with
  | nil => exact if_pos rfl
  | cons x pre ih =>
    have ⟨hx,hpre⟩ := List.forall_mem_cons.mp h
    exact (if_neg hx).trans (ih hpre)

theorem change_here (f : Buffer → Buffer) : change f (pre++b::post) b.addr=pre++f b::post := by
  induction pre with
  | nil => exact if_pos rfl
  | cons x pre ih =>
    have ⟨hx,hpre⟩ := List.forall_mem_cons.mp h
    exact (if_neg hx).trans (congrArg (x::·) (ih hpre))

theorem listAdd_here (new : Buffer) :
    listAdd new (pre++b::post) b.addr=pre++b::new::post := by
  induction pre with
  | nil => exact if_pos rfl
  | cons x pre ih =>
    have ⟨hx,hpre⟩ := List.forall_mem_cons.mp h
    exact (if_neg hx).trans (congrArg (x::·) (ih hpre))

theorem listDel_here : listDel (pre++b::post) b.addr=pre++post := by
  induction pre with
  | nil => exact if_pos rfl
  | cons x pre ih =>
    have ⟨hx,hpre⟩ := List.forall_mem_cons.mp h
    exact (if_neg hx).trans (congrArg (x::·) (ih hpre))

end

theorem prevOf_none (xs : List Buffer) : ∀ (x : Buffer) (a : ℕ),(∀ y∈xs,y.addr≠a) →
    prevOf (x::xs) a=none := by
  induction xs with
  | nil => exact fun _ _ _ => rfl
  | cons y ys ih =>
    intro x a h
    have ⟨hy,hys⟩ := List.forall_mem_cons.mp h
    exact (if_neg hy).trans (ih y a hys)

theorem prevOf_here {q : Buffer} (pre : List Buffer) (hpre : ∀ x∈pre,x.addr≠b.addr)
    (hq : q.addr≠b.addr) : prevOf (pre++q::b::post) b.addr=some q := by
  induction pre with
  | nil => exact if_pos rfl
  | cons x pre ih =>
    have ⟨_,hpre'⟩ := List.forall_mem_cons.mp hpre
    cases pre with
    | nil => exact (if_neg hq).trans (ih hpre')
    | cons y pre =>
      have ⟨hy,_⟩ := List.forall_mem_cons.mp hpre'
      exact (if_neg hy).trans (ih hpre')

/-! ## Bytes in use -/

/-- The bytes of headers, and of the data of allocated buffers. -/
def Used (size : ℕ) : List Buffer → ℕ → Prop
  | [], _ => False
  | b::bs, x =>
    (b.addr≤x∧x< if b.free then b.addr+HEADER else startOf size bs)∨Used size bs x

theorem used_append {x : ℕ} :
    Used size (xs++ys) x ↔ Used (startOf size ys) xs x∨Used size ys x := by
  induction xs with
  | nil => exact Iff.of_eq (false_or _).symm
  | cons b bs ih =>
    change (b.addr≤x∧x< if b.free then b.addr+HEADER else startOf size (bs++ys))∨
      Used size (bs++ys) x ↔ (_∨_)∨_
    rw [ih,startOf_append,or_assoc]

theorem Tiled.used (h : Tiled size xs) {x : ℕ} (hx : Used size xs x) :
    startOf size xs≤x∧x<size := by
  induction xs with
  | nil => exact hx.elim
  | cons b bs ih =>
    have hle := h.2.start_le
    have hb := h.1
    rcases hx with ⟨h1,h2⟩|hx
    · refine ⟨h1,?_⟩
      split at h2 <;> omega
    · have ⟨h1,h2⟩ := ih h.2 hx
      refine ⟨?_,h2⟩
      change b.addr≤x
      omega

/-- A space after a buffer starts with a byte in use. -/
theorem used_start (h : Tiled size xs) (hlt : startOf size xs<size) :
    Used size xs (startOf size xs) := by
  cases xs with
  | nil => exact absurd hlt (lt_irrefl _)
  | cons b bs =>
    have hb := h.1
    have hh : HEADER=40 := rfl
    refine .inl ⟨le_rfl,?_⟩
    change b.addr<_
    split <;> omega

/-- The bytes in use around a buffer. -/
def UsedAround (size : ℕ) (pre : List Buffer) (b : Buffer) (post : List Buffer) (x : ℕ) : Prop :=
  Used b.addr pre x∨Used size post x

theorem used_split {x : ℕ} : Used size (pre++b::post) x ↔ UsedAround size pre b post x∨
    (b.addr≤x∧x< if b.free then b.addr+HEADER else startOf size post) := by
  rw [used_append]
  change (_∨_∨_) ↔ (_∨_)∨_
  tauto

theorem Around.used (h : Around size pre b post) {x : ℕ} (hx : UsedAround size pre b post x) :
    x<b.addr∨startOf size post≤x := by
  rcases hx with hx|hx
  · exact .inl (h.pre.used hx).2
  · exact .inr (h.post.used hx).1

/-! ## Pages -/

/-- A page on which there is a byte. -/
def OnPage (bytes : ℕ → Prop) (i : ℕ) : Prop := ∃ x,bytes x∧x/PAGE_SIZE=i

theorem freePages_spec (start n : ℕ) : ∀ pages : ℕ → Bool,
    (∀ i,start≤ i → i<start+n → pages i=true) →
    freePages start n pages=
      some fun i => if start≤ i∧i<start+n then false else pages i := by
  induction n with
  | zero =>
    intro pages _
    refine congrArg some (funext fun i => ?_)
    rw [if_neg (by omega)]
  | succ n ih =>
    intro pages h
    unfold freePages
    rw [if_pos (h (start+n) (by omega) (by omega)),ih]
    · refine congrArg some (funext fun i => ?_)
      by_cases hi : i=start+n
      · rw [hi,update_self,if_neg (by omega),if_pos (by omega)]
      · rw [update_of_ne hi]
        by_cases hr : start≤ i∧i<start+n
        · rw [if_pos hr,if_pos (by omega)]
        · rw [if_neg hr,if_neg (by omega)]
    · intro i h1 h2
      rw [update_of_ne (by omega)]
      exact h i h1 (by omega)

/-- The pages are there after a success, and as they were after a failure. -/
theorem allocPages_spec (o : Steps) (start : ℕ) (pages0 : ℕ → Bool) (n : ℕ) :
    ∀ (k : ℕ) (pages : ℕ → Bool),
    (∀ i,pages i=if start≤ i∧i<start+k then true else pages0 i) →
    (∀ i,start≤ i → i<start+(k+n) → pages0 i=false) →
    allocPages o start k n pages=some (false,pages0)∨
      allocPages o start k n pages=
        some (true,fun i => if start≤ i∧i<start+(k+n) then true else pages0 i) := by
  induction n with
  | zero =>
    intro k pages hp _
    exact .inr (congrArg (fun f => some (true,f)) (funext hp))
  | succ n ih =>
    intro k pages hp hnone
    have hback : ∀ pages' : ℕ → Bool,(∀ i,i<start+k → pages' i=pages i) →
        (∀ i,start+k≤ i → pages' i=pages0 i) →
        freePages start k pages'=some pages0 := by
      intro pages' hbelow habove
      rw [freePages_spec start k pages' fun i h1 h2 => by
        rw [hbelow i h2,hp,if_pos ⟨h1,h2⟩]]
      refine congrArg some (funext fun i => ?_)
      by_cases hr : start≤ i∧i<start+k
      · rw [if_pos hr]
        exact (hnone i hr.1 (by omega)).symm
      · rw [if_neg hr]
        by_cases hi : i<start+k
        · rw [hbelow i hi,hp,if_neg hr]
        · exact habove i (not_lt.mp hi)
    have habove : ∀ i,start+k≤ i → pages i=pages0 i := fun i hi => by
      rw [hp,if_neg (by omega)]
    have hpage : ¬pages (start+k)=true := by
      rw [habove _ le_rfl,hnone _ (Nat.le_add_right _ _) (by omega)]
      decide
    unfold allocPages
    rw [if_neg hpage]
    have hsame : update (update pages (start+k) true) (start+k) false=pages := by
      rw [update_idem]
      refine update_eq_self_iff.mpr ?_
      exact (Bool.eq_false_iff.mpr hpage).symm
    cases o.fails (start+k) with
    | some e =>
      refine .inl ?_
      cases e with
      | allocPage =>
        rw [hback pages (fun _ _ => rfl) habove]
        rfl
      | mapVmArea =>
        dsimp only
        rw [hsame,hback pages (fun _ _ => rfl) habove]
        rfl
      | vmInsertPage =>
        dsimp only
        rw [hsame,hback pages (fun _ _ => rfl) habove]
        rfl
    | none =>
      have hsum : k+1+n=k+(n+1) := by omega
      have h := ih (k+1) (update pages (start+k) true) ?_ ?_
      · rw [hsum] at h
        exact h
      · intro i
        by_cases hi : i=start+k
        · rw [hi,update_self,if_pos (by omega)]
        · rw [update_of_ne hi,hp]
          by_cases hr : start≤ i∧i<start+k
          · rw [if_pos hr,if_pos (by omega)]
          · rw [if_neg hr,if_neg (by omega)]
      · intro i h1 h2
        exact hnone i h1 (by omega)

/-- An allocation of whole pages. -/
theorem updatePageRange_alloc (p : Proc) (o : Steps) {s t : ℕ}
    (hnone : ∀ i,s≤ i → i<t → p.pages i=false) :
    binderUpdatePageRange p true (s*PAGE_SIZE) (t*PAGE_SIZE) o=some (false,p)∨
      binderUpdatePageRange p true (s*PAGE_SIZE) (t*PAGE_SIZE) o=
        some (true,{ p with pages := fun i => if s≤ i∧i<t then true else p.pages i }) := by
  have hpos : 0<PAGE_SIZE := by decide
  unfold binderUpdatePageRange
  by_cases hle : t≤ s
  · rw [if_pos (Nat.mul_le_mul_right _ hle)]
    refine .inr (congrArg (fun f => some (true,{ p with pages := f })) (funext fun i => ?_))
    rw [if_neg (by omega)]
  · rw [if_neg (mt (fun h => Nat.le_of_mul_le_mul_right h hpos) hle),if_pos rfl]
    by_cases hv : ¬o.vma=true
    · rw [if_pos hv]
      exact .inl rfl
    · rw [if_neg hv,Nat.mul_div_cancel _ hpos,←Nat.sub_mul,Nat.mul_div_cancel _ hpos]
      rcases allocPages_spec o s p.pages (t-s) 0 p.pages (fun i => by rw [if_neg (by omega)])
          (fun i h1 h2 => hnone i h1 (by omega)) with h|h
      · rw [h]
        exact .inl rfl
      · have hst : s+(0+(t-s))=t := by omega
        rw [hst] at h
        rw [h]
        exact .inr rfl

theorem updatePageRange_free (p : Proc) (o : Steps) {s t : ℕ}
    (hall : ∀ i,s≤ i → i<t → p.pages i=true) :
    ∃ ok,binderUpdatePageRange p false (s*PAGE_SIZE) (t*PAGE_SIZE) o=
      some (ok,{ p with pages := fun i => if s≤ i∧i<t then false else p.pages i }) := by
  have hpos : 0<PAGE_SIZE := by decide
  unfold binderUpdatePageRange
  by_cases hle : t≤ s
  · rw [if_pos (Nat.mul_le_mul_right _ hle)]
    refine ⟨true,congrArg (fun f => some (true,{ p with pages := f })) (funext fun i => ?_)⟩
    rw [if_neg (by omega)]
  · rw [if_neg (mt (fun h => Nat.le_of_mul_le_mul_right h hpos) hle),if_neg (by decide),
      Nat.mul_div_cancel _ hpos,←Nat.sub_mul,Nat.mul_div_cancel _ hpos,
      freePages_spec s (t-s) p.pages fun i h1 h2 => hall i h1 (by omega)]
    have hst : s+(t-s)=t := by omega
    rw [hst]
    exact ⟨false,rfl⟩

/-! ## Trees -/

theorem toList_without (a : ℕ) (t : SearchTree.Tree ℕ) :
    (without a t).toList=t.toList.filter fun x => x≠a := by
  induction t with
  | nil => rfl
  | node l x r ihl ihr =>
    unfold without
    by_cases hx : x=a
    · rw [if_pos hx,SearchTree.Tree.toList_join,ihl,ihr]
      simp [SearchTree.Tree.toList,List.filter_append,hx]
    · simp [SearchTree.Tree.toList,List.filter_append,ihl,ihr,hx]

theorem visits_of {ok : ℕ → Bool} (dir : ℕ → Turn) {t : SearchTree.Tree ℕ}
    (h : ∀ x∈t.toList,ok x=true) : visits ok dir t=true := by
  induction t with
  | nil => rfl
  | node l x r ihl ihr =>
    have hx : ok x=true := h x (by simp [SearchTree.Tree.toList])
    have hl := ihl fun y hy => h y (by simp [SearchTree.Tree.toList,hy])
    have hr := ihr fun y hy => h y (by simp [SearchTree.Tree.toList,hy])
    unfold visits
    rw [hx,Bool.true_and]
    split
    · exact hl
    · rfl
    · exact hr

/-- A walk that never stops finds nothing. -/
theorem find_right_left {dir : ℕ → Turn} (t : SearchTree.Tree ℕ) (h : ∀ x,dir x≠.here) :
    t.find dir=none := by
  induction t with
  | nil => rfl
  | node l x r ihl ihr =>
    unfold SearchTree.Tree.find
    have hx := h x
    split
    · exact ihl
    · next heq => exact absurd heq hx
    · exact ihr

/-- The free buffers in the tree, the smaller ones first. -/
structure FreeTree (p : Proc) (addrs : List ℕ) : Prop where
  perm : p.freeBuffers.toList.Perm addrs
  sorted : p.freeBuffers.toList.Pairwise fun x y =>
    sizeIn p.bufferSize p.buffers x≤ sizeIn p.bufferSize p.buffers y

theorem insertFree_ok (rb : Rebalance) {p : Proc} {a : ℕ} {addrs : List ℕ}
    (ht : FreeTree p addrs) (ha : p.reads true a=true) (hall : ∀ x∈addrs,p.reads true x=true) :
    ∃ t,binderInsertFreeBuffer rb p a=some { p with freeBuffers := t }∧
      FreeTree { p with freeBuffers := t } (a::addrs) := by
  unfold binderInsertFreeBuffer
  rw [if_neg (not_not.mpr ha)]
  have hvis := visits_of (fun y => if sizeIn p.bufferSize p.buffers a<
      sizeIn p.bufferSize p.buffers y then Turn.left else .right)
    (fun x hx => hall x (ht.perm.mem_iff.mp hx))
  rw [if_pos hvis]
  refine ⟨_,rfl,?_,?_⟩
  · rw [rb.keeps]
    have hf : p.freeBuffers.find (fun y => if sizeIn p.bufferSize p.buffers a<
        sizeIn p.bufferSize p.buffers y then Turn.left else .right)=none := by
      refine find_right_left _ fun x => ?_
      split <;> decide
    have ⟨l1,l2,hl,hadd⟩ := SearchTree.Tree.add_split hf
    rw [hadd]
    exact List.perm_middle.trans ((hl▸ht.perm).cons a)
  · rw [rb.keeps]
    refine SearchTree.Tree.add_pairwise (r := fun x y => sizeIn p.bufferSize p.buffers x≤
      sizeIn p.bufferSize p.buffers y) ⟨?_,?_,?_,?_⟩ ht.sorted ?_ ?_ ?_
    · intro x y hxy hx
      split at hx
      · next hlt => exact if_pos (hlt.trans_le hxy)
      · cases hx
    · intro x y hxy hy
      split at hy
      · cases hy
      · next hge => exact if_neg (not_lt.mpr (hxy.trans (not_lt.mp hge)))
    · intro x y _ hx
      split at hx <;> cases hx
    · intro x y _ hy
      split at hy <;> cases hy
    · refine find_right_left _ fun x => ?_
      split <;> decide
    · intro y _ hy
      split at hy
      · cases hy
      · next hge => exact not_lt.mp hge
    · intro y _ hy
      split at hy
      · next hlt => exact hlt.le
      · cases hy

/-- What the search for a free buffer finds: the buffer of the size asked for,
the smallest one that is larger, or none. -/
structure Fit (p : Proc) (size : ℕ) (t : SearchTree.Tree ℕ) (best : Option ℕ) (res : Option ℕ×Bool) :
    Prop where
  exactly : res.2=true → ∃ a∈t.toList,res.1=some a∧sizeIn p.bufferSize p.buffers a=size
  larger : res.2=false → (∃ a∈t.toList,res.1=some a∧size<sizeIn p.bufferSize p.buffers a∧
      ∀ y∈t.toList,size≤ sizeIn p.bufferSize p.buffers y →
        sizeIn p.bufferSize p.buffers a≤ sizeIn p.bufferSize p.buffers y)∨
    (res.1=best∧∀ y∈t.toList,sizeIn p.bufferSize p.buffers y<size)

theorem bestFit_spec {p : Proc} (size : ℕ) (t : SearchTree.Tree ℕ)
    (sorted : t.toList.Pairwise fun x y =>
      sizeIn p.bufferSize p.buffers x≤ sizeIn p.bufferSize p.buffers y)
    (hall : ∀ x∈t.toList,p.reads true x=true) : ∀ best : Option ℕ,
    ∃ res,bestFit p size t best=some res∧Fit p size t best res := by
  induction t with
  | nil => exact fun best => ⟨(best,false),rfl,nofun,fun _ => .inr ⟨rfl,nofun⟩⟩
  | node l a r ihl ihr =>
    intro best
    obtain ⟨hl,hr,hla,har,_⟩ := SearchTree.Tree.pairwise_node.mp sorted
    have hmem : ∀ y,y∈(SearchTree.Tree.node l a r).toList ↔ y∈l.toList∨y=a∨y∈r.toList := fun y => by
      simp [SearchTree.Tree.toList]
    have ha : p.reads true a=true := hall a ((hmem a).mpr (.inr (.inl rfl)))
    unfold bestFit
    rw [if_neg (not_not.mpr ha)]
    dsimp only
    split
    · next hlt =>
      obtain ⟨res,heq,hfit⟩ := ihl hl (fun x hx => hall x ((hmem x).mpr (.inl hx))) (some a)
      refine ⟨res,heq,fun hx => ?_,fun hx => .inl ?_⟩
      · obtain ⟨y,hy,h⟩ := hfit.exactly hx
        exact ⟨y,(hmem y).mpr (.inl hy),h⟩
      · rcases hfit.larger hx with ⟨y,hy,h1,h2,h3⟩|⟨h1,h2⟩
        · refine ⟨y,(hmem y).mpr (.inl hy),h1,h2,fun z hz hs => ?_⟩
          rcases (hmem z).mp hz with hz|hz|hz
          · exact h3 z hz hs
          · rw [hz]
            exact hla y hy
          · exact (hla y hy).trans (har z hz)
        · refine ⟨a,(hmem a).mpr (.inr (.inl rfl)),h1,hlt,fun z hz hs => ?_⟩
          rcases (hmem z).mp hz with hz|hz|hz
          · exact absurd (h2 z hz) (not_lt.mpr hs)
          · rw [hz]
          · exact har z hz
    · next hge =>
      split
      · next hgt =>
        obtain ⟨res,heq,hfit⟩ := ihr hr (fun x hx => hall x ((hmem x).mpr (.inr (.inr hx)))) best
        refine ⟨res,heq,fun hx => ?_,fun hx => ?_⟩
        · obtain ⟨y,hy,h⟩ := hfit.exactly hx
          exact ⟨y,(hmem y).mpr (.inr (.inr hy)),h⟩
        · rcases hfit.larger hx with ⟨y,hy,h1,h2,h3⟩|⟨h1,h2⟩
          · refine .inl ⟨y,(hmem y).mpr (.inr (.inr hy)),h1,h2,fun z hz hs => ?_⟩
            rcases (hmem z).mp hz with hz|hz|hz
            · have := hla z hz
              omega
            · rw [hz] at hs
              omega
            · exact h3 z hz hs
          · refine .inr ⟨h1,fun z hz => ?_⟩
            rcases (hmem z).mp hz with hz|hz|hz
            · have := hla z hz
              omega
            · rw [hz]
              exact hgt
            · exact h2 z hz
      · next hle =>
        refine ⟨(some a,true),rfl,fun _ => ⟨a,(hmem a).mpr (.inr (.inl rfl)),rfl,?_⟩,by rintro ⟨⟩⟩
        omega

/-- The addresses of allocated buffers. -/
def allocAddrs (l : List Buffer) : List ℕ := (l.filter fun b => !b.free).map Buffer.addr

/-- The addresses of free buffers. -/
def freeAddrs (l : List Buffer) : List ℕ := (l.filter fun b => b.free).map Buffer.addr

theorem mem_allocAddrs {l : List Buffer} {a : ℕ} :
    a∈allocAddrs l ↔ ∃ b∈l,b.free=false∧b.addr=a := by
  unfold allocAddrs
  simp only [List.mem_map,List.mem_filter,Bool.not_eq_true',and_assoc]

theorem mem_freeAddrs {l : List Buffer} {a : ℕ} :
    a∈freeAddrs l ↔ ∃ b∈l,b.free=true∧b.addr=a := by
  unfold freeAddrs
  simp only [List.mem_map,List.mem_filter,and_assoc]

theorem allocAddrs_append (xs ys : List Buffer) :
    allocAddrs (xs++ys)=allocAddrs xs++allocAddrs ys := by
  unfold allocAddrs
  rw [List.filter_append,List.map_append]

theorem freeAddrs_append (xs ys : List Buffer) :
    freeAddrs (xs++ys)=freeAddrs xs++freeAddrs ys := by
  unfold freeAddrs
  rw [List.filter_append,List.map_append]

theorem allocAddrs_cons (b : Buffer) (bs : List Buffer) :
    allocAddrs (b::bs)=if b.free then allocAddrs bs else b.addr::allocAddrs bs := by
  unfold allocAddrs
  cases hb : b.free <;> simp [hb]

theorem freeAddrs_cons (b : Buffer) (bs : List Buffer) :
    freeAddrs (b::bs)=if b.free then b.addr::freeAddrs bs else freeAddrs bs := by
  unfold freeAddrs
  cases hb : b.free <;> simp [hb]

theorem addrTurn_guides (a : ℕ) : Guides (·<·) (addrTurn a) := by
  unfold addrTurn
  refine ⟨?_,?_,?_,?_⟩ <;> intro x y hxy hd <;> split at hd <;> try split at hd
  all_goals try cases hd
  · rw [if_pos (by omega)]
  · rw [if_neg (by omega),if_pos (by omega)]
  · rw [if_pos (by omega)]
  · rw [if_neg (by omega),if_pos (by omega)]

theorem insertAllocated_ok (rb : Rebalance) {p : Proc} (around : Around size pre b post)
    (halloc : p.allocatedBuffers.toList=allocAddrs pre++allocAddrs post)
    (hb : p.reads false b.addr=true)
    (hall : ∀ x∈allocAddrs pre++allocAddrs post,p.reads false x=true) :
    ∃ t,binderInsertAllocatedBuffer rb p b.addr=some { p with allocatedBuffers := t }∧
      t.toList=allocAddrs pre++b.addr::allocAddrs post := by
  have hh : HEADER=40 := rfl
  have hlow : ∀ x∈allocAddrs pre,x<b.addr := by
    intro x hx
    have ⟨y,hy,_,heq⟩ := mem_allocAddrs.mp hx
    have := around.before hy
    omega
  have hhigh : ∀ x∈allocAddrs post,b.addr<x := by
    intro x hx
    have ⟨y,hy,_,heq⟩ := mem_allocAddrs.mp hx
    have := around.after hy
    omega
  have hturn : ∀ x∈p.allocatedBuffers.toList,addrTurn b.addr x≠.here := by
    intro x hx
    rw [halloc] at hx
    unfold addrTurn
    rcases List.mem_append.mp hx with hx|hx
    · have := hlow x hx
      rw [if_neg (by omega),if_pos (by omega)]
      decide
    · rw [if_pos (hhigh x hx)]
      decide
  have hsub : ∀ {l : List Buffer} {n : ℕ},Tiled n l → (allocAddrs l).Pairwise (·<·) := by
    intro l n hl
    exact (tiled_addrs hl).sublist (List.filter_sublist.map _)
  have hsorted : p.allocatedBuffers.toList.Pairwise (·<·) := by
    rw [halloc]
    refine List.pairwise_append.mpr ⟨hsub around.pre,hsub around.post,fun x hx y hy => ?_⟩
    exact (hlow x hx).trans (hhigh y hy)
  have hf : p.allocatedBuffers.find (addrTurn b.addr)=none :=
    (SearchTree.Tree.find_none_iff (addrTurn_guides b.addr) hsorted).mpr hturn
  have hvis : visits (p.reads false) (addrTurn b.addr) p.allocatedBuffers=true :=
    visits_of _ fun x hx => hall x (halloc▸hx)
  unfold binderInsertAllocatedBuffer
  rw [if_neg (not_not.mpr hb),if_pos ⟨hvis,by rw [hf]; rfl⟩]
  refine ⟨_,rfl,?_⟩
  rw [rb.keeps]
  have hadd : (p.allocatedBuffers.add (addrTurn b.addr) b.addr).toList.Pairwise (·<·) := by
    refine SearchTree.Tree.add_pairwise (addrTurn_guides b.addr) hsorted hf (fun y hy hd => ?_) (fun y hy hd => ?_)
    · unfold addrTurn at hd
      split at hd
      · cases hd
      split at hd
      · next h => exact h
      · cases hd
    · unfold addrTurn at hd
      split at hd
      · next h => exact h
      split at hd <;> cases hd
  have ⟨l1,l2,hl,hadd'⟩ := SearchTree.Tree.add_split hf
  refine List.Perm.eq_of_pairwise ?_ hadd ?_ ?_
  · exact fun x y _ _ h1 h2 => absurd (h1.trans h2) (lt_irrefl _)
  · refine List.pairwise_append.mpr ⟨hsub around.pre,List.pairwise_cons.mpr
      ⟨hhigh,hsub around.post⟩,fun x hx y hy => ?_⟩
    rcases List.mem_cons.mp hy with hy|hy
    · rw [hy]
      exact hlow x hx
    · exact (hlow x hx).trans (hhigh y hy)
  · rw [hadd']
    refine List.perm_middle.trans ?_
    rw [hl.symm.trans halloc]
    exact List.perm_middle.symm

/-! ## Pages of one buffer -/

/-- Bytes that lie outside of a buffer, and start again right after it. -/
structure Outside (A : ℕ → Prop) (size a e : ℕ) : Prop where
  out : ∀ x,A x → x<a∨e≤x
  start : e<size → A e
  room : a+HEADER≤e
  le : e≤ size
  dvd : PAGE_SIZE∣size

/-- The pages between the header of a buffer and the end of what is taken of it. -/
theorem pages_between {A : ℕ → Prop} {S a e T X : ℕ} (h : Outside A S a e) (lo : a+HEADER≤T)
    (le : T≤X) (hi : X≤e) (slack : X≤T+(HEADER+4)) (ends : X=e∨T=X) :
    (∀ i,(a+HEADER+(PAGE_SIZE-1))/PAGE_SIZE≤ i →
      i< min ((T+(PAGE_SIZE-1))/PAGE_SIZE) (e/PAGE_SIZE) →
      ¬OnPage (fun x => A x∨(a≤x∧x<a+HEADER)) i)∧
    ∀ i,OnPage (fun x => A x∨(a≤x∧x<X)) i ↔
      ((a+HEADER+(PAGE_SIZE-1))/PAGE_SIZE≤ i∧
        i< min ((T+(PAGE_SIZE-1))/PAGE_SIZE) (e/PAGE_SIZE))∨
      OnPage (fun x => A x∨(a≤x∧x<a+HEADER)) i := by
  have ⟨hout,hstart,hroom,hle,hdvd⟩ := h
  unfold OnPage
  unfold HEADER at *
  unfold PAGE_SIZE at *
  refine ⟨fun i h1 h2 ⟨x,hx,hp⟩ => ?_,fun i => ⟨fun ⟨x,hx,hp⟩ => ?_,fun hi => ?_⟩⟩
  · rcases hx with hx|hx
    · have := hout x hx
      omega
    · omega
  · rcases hx with hx|⟨h1,h2⟩
    · exact .inr ⟨x,.inl hx,hp⟩
    · by_cases hin : (a+40+(4096-1))/4096≤ i∧i< min ((T+(4096-1))/4096) (e/4096)
      · exact .inl hin
      · refine .inr ?_
        by_cases hlow : i=(a+39)/4096
        · exact ⟨a+39,.inr (by omega),hlow.symm⟩
        · by_cases hx' : x<a+40
          · exact ⟨x,.inr ⟨h1,hx'⟩,hp⟩
          · -- the page ends after the buffer, so that something starts on it
            have he : e<S∧i=e/4096 := by omega
            exact ⟨e,.inl (hstart he.1),he.2.symm⟩
  · rcases hi with ⟨h1,h2⟩|⟨x,hx,hp⟩
    · exact ⟨i*4096,.inr (by omega),by omega⟩
    · refine ⟨x,hx.imp_right fun hx => ⟨hx.1,?_⟩,hp⟩
      omega

/-- A page that is freed with a header. -/
def Freed (ends : Bool×Bool) (a i : ℕ) : Prop :=
  (ends.1=true∨ends.2=true)∧
    (if ends.1 then a/PAGE_SIZE else (a+HEADER-1)/PAGE_SIZE)≤ i∧
    i<(if ends.2 then (a+HEADER-1)/PAGE_SIZE else a/PAGE_SIZE)+1

theorem mask_eq {x y : ℕ} : pageMask x=pageMask y ↔ x/PAGE_SIZE=y/PAGE_SIZE :=
  Nat.mul_left_inj (by decide)

/-- Which ends of a header are freed: those on no page of the headers around. -/
theorem freeEnds_iff {S n : ℕ} (prev a : ℕ) {next : Option ℕ}
    (hnext : next=if n<S then some n else none) :
    ((freeEnds prev a next).1=true ↔ (prev+HEADER-1)/PAGE_SIZE≠a/PAGE_SIZE∧
      ¬(n<S∧n/PAGE_SIZE=(a+HEADER-1)/PAGE_SIZE∧n/PAGE_SIZE=a/PAGE_SIZE))∧
    ((freeEnds prev a next).2=true ↔ ¬((prev+HEADER-1)/PAGE_SIZE=a/PAGE_SIZE∧
        (prev+HEADER-1)/PAGE_SIZE=(a+HEADER-1)/PAGE_SIZE)∧
      ¬(n<S∧n/PAGE_SIZE=(a+HEADER-1)/PAGE_SIZE)) := by
  unfold freeEnds bufferEndPage bufferStartPage
  simp only [mask_eq]
  generalize (a+HEADER-1)/PAGE_SIZE=pe
  generalize a/PAGE_SIZE=ps
  by_cases hn : n<S
  · rw [hnext,if_pos hn]
    dsimp only
    generalize n/PAGE_SIZE=pn
    by_cases h1 : pn=pe
    · by_cases h2 : pn=ps
      · simp [hn,h1,h1.symm.trans h2]
      · have h3 : ¬pe=ps := h1▸h2
        simp [hn,h1,h3]
    · simp [h1]
      tauto
  · rw [hnext,if_neg hn]
    simp [hn]
    tauto

/-- The pages freed with a header are those that nothing else lies on. -/
theorem freed_iff {A : ℕ → Prop} {S prev a n : ℕ} {next : Option ℕ} (h : Outside A S a n)
    (last : A (prev+HEADER-1)) (before : ∀ x,A x → x<prev+HEADER∨n≤x) (room : prev+HEADER≤a)
    (hnext : next=if n<S then some n else none) (i : ℕ) :
    Freed (freeEnds prev a next) a i ↔
      OnPage (fun x => a≤x∧x<a+HEADER) i∧¬OnPage A i := by
  have ⟨_,hstart,hroom,hle,hdvd⟩ := h
  have ⟨hfst,hsnd⟩ := freeEnds_iff prev a hnext
  have hhere : OnPage (fun x => a≤x∧x<a+HEADER) i ↔
      i=a/PAGE_SIZE∨i=(a+HEADER-1)/PAGE_SIZE := by
    unfold OnPage HEADER PAGE_SIZE
    constructor
    · intro ⟨x,hx,hp⟩
      omega
    · rintro (hi|hi)
      · exact ⟨a,by omega,hi.symm⟩
      · exact ⟨a+40-1,by omega,hi.symm⟩
  -- of the pages of the header, only those of the headers around are in use
  have hother : i=a/PAGE_SIZE∨i=(a+HEADER-1)/PAGE_SIZE →
      (OnPage A i ↔ i=(prev+HEADER-1)/PAGE_SIZE∨n<S∧i=n/PAGE_SIZE) := by
    intro hi
    constructor
    · intro ⟨x,hx,hp⟩
      have hx := before x hx
      unfold HEADER PAGE_SIZE at *
      omega
    · rintro (hi|⟨hlt,hi⟩)
      · exact ⟨_,last,hi.symm⟩
      · exact ⟨n,hstart hlt,hi.symm⟩
  have hfacts : (prev+HEADER-1)/PAGE_SIZE≤a/PAGE_SIZE∧a/PAGE_SIZE≤(a+HEADER-1)/PAGE_SIZE∧
      (a+HEADER-1)/PAGE_SIZE≤a/PAGE_SIZE+1∧(a+HEADER-1)/PAGE_SIZE≤n/PAGE_SIZE := by
    unfold HEADER PAGE_SIZE at *
    omega
  rw [hhere]
  unfold Freed
  generalize (a+HEADER-1)/PAGE_SIZE=pe at *
  generalize a/PAGE_SIZE=ps at *
  by_cases hi : i=ps∨i=pe
  · rw [hother hi]
    cases h1 : (freeEnds prev a next).1 <;> cases h2 : (freeEnds prev a next).2 <;>
      rw [h1] at hfst <;> rw [h2] at hsnd <;> simp at hfst hsnd ⊢ <;> omega
  · refine iff_of_false (fun hf => hi ?_) fun hf => hi hf.1
    split at hf <;> split at hf <;> omega

end ArdroneKernel.BinderBuffers
