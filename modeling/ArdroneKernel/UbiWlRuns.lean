import ArdroneKernel.UbiWlPlaces
import ArdroneKernel.UbiScanCorrect

/-!
# Runs of the wear-leveling unit

What holds in every run that starts from a scan: where each eraseblock is, and
that no entry is used after it was given back.
-/

namespace ArdroneKernel.UbiWlRuns

open SearchTree UbiScan UbiWearLeveling UbiWlPlaces Execution

/-! ## Places -/

/-- The eraseblocks in trees, queues and works, and those being moved. -/
def containers (st : State) : List ℕ :=
  st.free.toList++st.used.toList++st.scrub.toList++st.erroneous.toList++st.pq.flatten++
    st.works.flatMap workPebs++st.threads.flatMap erasing++st.moveFrom.toList++st.moveTo.toList

/-- The eraseblocks that a put or a finished move took out of their places and
is about to have erased. -/
def hands (st : State) : List ℕ := st.threads.flatMap putHands++moverHands st.mover

/-- The eraseblocks that callers got and did not put, or not yet. -/
def owned (st : State) : List ℕ := st.held++st.threads.flatMap putting

/-- Where the eraseblocks of a scan are. -/
structure Placed (pebs : List ℕ) (st : State) : Prop where
  /-- Each of them is in one place. -/
  once : ∀ e∈pebs,(containers st++hands st++st.freed).count e=1
  /-- No other eraseblock is anywhere. -/
  inside : ∀ e∈containers st++hands st++st.freed,e∈pebs
  works : st.worksCount=st.works.length
  errors : st.erroneousPebCount=st.erroneous.toList.length
  targetPut : st.moveToPut=true → st.moveTo.isSome=true
  /-- No eraseblock with an owner is handed out. -/
  fresh : ∀ cfg dtype st' e,ubiWlGetPeb cfg st dtype=some (st',e) → e∉owned st
  /-- No eraseblock with an owner is being erased, or is to be erased. -/
  kept : ∀ e∈owned st,e∉st.works.flatMap workPebs∧e∉st.threads.flatMap erasing

theorem placed_of_inv {pebs : List ℕ} {st : State} (nd : pebs.Nodup) (h : Inv pebs st) :
    Placed pebs st := by
  have total : ∀ a,(containers st++hands st++st.freed).count a=pebs.count a := by
    intro a
    rw [←h.total a]
    simp only [containers,hands,List.count_append]
    omega
  have apart : ∀ e,0<st.free.toList.count e+(st.works.flatMap workPebs).count e+
      (st.threads.flatMap erasing).count e → e∉owned st := by
    intro e he
    have ⟨h1,h2⟩ := not_inUse nd h (e := e) (by omega)
    rw [owned,List.mem_append]
    rintro (k|k)
    · exact List.count_eq_zero.mp h1 k
    · exact List.count_eq_zero.mp h2 k
  refine ⟨?_,?_,h.works,h.errors,?_,?_,?_⟩
  · intro e he
    rw [total,List.count_eq_one_of_mem nd he]
  · intro e he
    have := List.count_pos_iff.mpr he
    rw [total] at this
    exact List.count_pos_iff.mp this
  · intro hb
    have ⟨e1,e2,hm⟩ := h.targetPut hb
    rw [h.target,hm]
    rfl
  · intro cfg dtype st' e hget
    have ⟨x,hx,heq⟩ := Option.map_eq_some_iff.mp hget
    cases heq
    have := List.count_pos_iff.mpr (pickFree_mem hx)
    exact apart e (by omega)
  · intro e he
    constructor
    · intro hm
      have := List.count_pos_iff.mpr hm
      exact apart e (by omega) he
    · intro hm
      have := List.count_pos_iff.mpr hm
      exact apart e (by omega) he

/-- Erasures succeed, a VID header is read or was never written, and no copy
ends with a negative error code. -/
def answered (st : State) : Event → Bool
  | .thread i o =>
    match st.threads.getD i .done with
    | .erase e _ => (syncErase o (st.ec e)).toBool
    | _ => true
  | .mover o =>
    match st.mover with
    | .copy _ _ _ => o.vid=.ff||o.vid=.ffBitflips||(o.vid.good&&o.copy≠.err)
    | _ => true
  | _ => true

/-- No source is unreadable when there are too many erroneous eraseblocks. -/
def tolerated (cfg : Config) (st : State) : Event → Bool
  | .mover o => o.copy≠.sourceRdErr||st.erroneousPebCount≤cfg.maxErroneous
  | _ => true

/-- A step without a failure. -/
def regular (cfg : Config) (st : State) (ev : Event) : Bool := answered st ev&&tolerated cfg st ev

/-- No erasure and no move failed. -/
structure NoFailure (st : State) : Prop where
  retry : ∀ e,Thread.retry e∉st.threads
  failed : ∀ e1 e2,st.mover≠.failed e1 e2

theorem retry_set {st : State} (h : NoFailure st) {i : ℕ} {t : Thread} (ht : ∀ e,t≠.retry e)
    (e : ℕ) : Thread.retry e∉st.threads.set i t := by
  intro hm
  rcases List.mem_or_eq_of_mem_set hm with k|k
  · exact h.retry e k
  · exact ht e k.symm

variable {cfg : Config} {st st' : State}

theorem threadStep_noFailure {i : ℕ} {o : Outcome} (h : NoFailure st)
    (reg : regular cfg st (.thread i o)=true) (ok : threadStep cfg st i o=some st') :
    NoFailure st' := by
  have key : ∀ t,(∀ e,t≠.retry e) → st'.threads=st.threads.set i t →
      st'.mover=st.mover → NoFailure st' := by
    intro t ht hth hm
    exact ⟨fun e => hth▸retry_set h ht e,hm▸h.failed⟩
  unfold threadStep at ok
  split at ok
  · simp at ok
  next e torture ht =>
    cases ok
    simp only [regular,answered,ht,Bool.and_eq_true] at reg
    have reg := reg.1
    unfold eraseWorker at key ⊢
    cases hec : syncErase o (st.ec e) with
    | error err =>
      rw [hec] at reg
      cases reg
    | ok ec =>
      simp only [hec] at key ⊢
      exact key (.erased e) (by simp) rfl rfl
  next e ht =>
    cases ok
    exact key .serve (by simp) rfl rfl
  next e ht =>
    unfold scheduleErase at ok
    by_cases hmem : o.mem=true
    · rw [if_pos hmem] at ok
      cases ok
      exact key .done (by simp) rfl rfl
    · rw [if_neg hmem] at ok
      cases ok
      exact key .done (by simp) rfl rfl
  next ht =>
    cases ok
    unfold serveProtQueue at key ⊢
    dsimp only at key ⊢
    split
    next hc =>
      rw [if_pos hc] at key
      exact key .serve (by simp) rfl rfl
    next hc =>
      rw [if_neg hc] at key
      exact key .ensure (by simp) rfl rfl
  next ht =>
    split at ok
    · cases ok
      exact key .ensureWork (by simp) rfl rfl
    · cases ok
      exact key .done (by simp) rfl rfl
  next ht =>
    split at ok
    · cases ok
      exact key .done (by simp) rfl rfl
    · cases ok
      exact key .done (by simp) rfl rfl
  next ht =>
    unfold wearLevelingStart at ok
    split at ok
    · cases ok
      exact key .done (by simp) rfl rfl
    split at ok
    · simp at ok
    split at ok
    · cases ok
      exact key .done (by simp) rfl rfl
    · cases ok
      exact ⟨fun e => retry_set h (by simp) e,by simp [State.goTo]⟩
  next e torture ht =>
    unfold putLocked at ok
    split at ok
    · simp at ok
    split at ok
    · cases ok
      exact key .done (by simp) rfl rfl
    split at ok
    · cases ok
      exact key (.putErase e torture) (by simp) rfl rfl
    split at ok
    · cases ok
      exact key (.putErase e torture) (by simp) rfl rfl
    split at ok
    · cases ok
      exact key (.putErase e true) (by simp) rfl rfl
    · cases ok
      exact key (.putErase e torture) (by simp) rfl rfl
  next e torture ht =>
    unfold scheduleErase at ok
    by_cases hmem : o.mem=true
    · rw [if_pos hmem] at ok
      cases ok
      exact key .done (by simp) rfl rfl
    · rw [if_neg hmem] at ok
      cases ok
      exact key (.putBack e) (by simp) rfl rfl
  next e ht =>
    cases ok
    exact key .done (by simp) rfl rfl

theorem moveResult_noFailure {st : State} {e1 e2 : ℕ} {scrubbing : Bool} {o : Outcome}
    (hm : st.mover=.copy e1 e2 scrubbing) (reg : regular cfg st (.mover o)=true) (x1 x2 : ℕ) :
    moveResult cfg st e1 e2 scrubbing o≠.failed x1 x2 := by
  simp only [regular,answered,tolerated,hm,Bool.and_eq_true,Bool.or_eq_true,
    decide_eq_true_eq] at reg
  obtain ⟨hvid,htol⟩ := reg
  unfold moveResult
  rcases hvid with (hv|hv)|⟨hv,herr⟩
  · simp [hv]
  · simp [hv]
  cases hvid : o.vid with
  | ok | bitflips =>
    cases hcopy : o.copy with
    | sourceRdErr =>
      have hle : st.erroneousPebCount≤cfg.maxErroneous := by simpa [hcopy] using htol
      dsimp only
      rw [if_neg (by omega)]
      simp
    | err => exact absurd hcopy herr
    | moved | cancelRace | cancelBitflips | targetWrErr | targetRdErr => simp
  | ff | ffBitflips => simp
  | badHdr | badHdrEbadmsg | err => simp [hvid,IoRes.good] at hv

theorem moverStep_noFailure {o : Outcome} (h : NoFailure st) (reg : regular cfg st (.mover o)=true)
    (ok : moverStep cfg st o=some st') : NoFailure st' := by
  have key : st'.threads=st.threads → (∀ e1 e2,st'.mover≠.failed e1 e2) → NoFailure st' :=
    fun hth hm => ⟨fun e => hth▸h.retry e,hm⟩
  unfold moverStep at ok
  split at ok
  · simp at ok
  next e1 e2 scrubbing hm =>
    have hres := moveResult_noFailure hm reg
    split at ok
    · split at ok
      · cases ok
        exact key rfl (by simp)
      · simp at ok
    · cases ok
      exact key rfl hres
  · cases ok
    exact key rfl (by simp)
  next e1 e2 protect scrubbing erroneous torture hm =>
    cases ok
    have hth : (putSourceBack cfg st e1 protect scrubbing erroneous).threads=st.threads := by
      unfold putSourceBack protQueueAdd
      split_ifs <;> rfl
    exact key hth (by simp)
  next e1 e2 hm => exact absurd hm (h.failed e1 e2)
  next e1 e2 hm =>
    unfold scheduleErase at ok
    by_cases hmem : o.mem=true
    · rw [if_pos hmem] at ok
      cases e2 with
      | none =>
        cases ok
        exact key rfl (by simp)
      | some e2 =>
        cases ok
        exact key rfl (by simp)
    · rw [if_neg hmem] at ok
      cases ok
      exact key rfl (by simp)
  next e2 torture hm =>
    unfold scheduleErase at ok
    by_cases hmem : o.mem=true
    · rw [if_pos hmem] at ok
      cases ok
      exact key rfl (by simp)
    · rw [if_neg hmem] at ok
      cases ok
      exact key rfl (by simp)

/-- What one regular step keeps. -/
theorem step_noFailure {ev : Event} (h : NoFailure st) (reg : regular cfg st ev=true)
    (ok : step cfg st ev=some st') : NoFailure st' := by
  have begins : ∀ t,(∀ e,t≠.retry e) → st'.threads=st.threads++[t] →
      st'.mover=st.mover → NoFailure st' := by
    intro t ht hth hm
    refine ⟨fun e => ?_,hm▸h.failed⟩
    rw [hth,List.mem_append,List.mem_singleton]
    rintro (k|k)
    · exact h.retry e k
    · exact ht e k.symm
  cases ev with
  | get dtype =>
    have ⟨⟨x,e⟩,hx,hs⟩ := Option.map_eq_some_iff.mp ok
    cases hs
    have ⟨y,hy,heq⟩ := Option.map_eq_some_iff.mp hx
    cases heq
    exact ⟨h.retry,h.failed⟩
  | work =>
    simp only [step] at ok
    unfold doWork at ok
    split at ok
    · simp at ok
    next e torture works hworks =>
      cases ok
      exact begins (.erase e torture) (by simp) rfl rfl
    · cases ok
      exact begins .move (by simp) rfl rfl
  | put e torture =>
    simp only [step] at ok
    split at ok
    · cases ok
      exact begins (.put e torture) (by simp) rfl rfl
    · simp at ok
  | scrub e =>
    simp only [step] at ok
    split at ok
    · unfold ubiWlScrubPeb at ok
      split at ok
      · cases ok
        exact h
      split at ok
      · simp at ok
      split at ok
      · cases ok
        exact begins .ensure (by simp) rfl rfl
      · cases ok
        exact begins .ensure (by simp) rfl rfl
    · simp at ok
  | mover o => exact moverStep_noFailure h reg ok
  | thread i o => exact threadStep_noFailure h reg ok

/-- Steps without failures are harmless. -/
theorem harmless_of_noFailure {st : State} (h : NoFailure st) (ev : Event) :
    harmless st ev=true := by
  unfold harmless
  split
  · split
    next e he => exact absurd (List.mem_of_getElem? (thread_at he (by simp))) (h.retry e)
    · rfl
  · split
    next e1 e2 hm => exact absurd hm (h.failed e1 e2)
    · rfl
  · rfl

theorem init_noFailure (cfg : Config) (si : ScanInfo) : NoFailure (ubiWlInitScan cfg si) :=
  ⟨by simp [ubiWlInitScan],by simp [ubiWlInitScan]⟩

/-- In every run without failures each eraseblock is in one place. -/
theorem run_placed (cfg : Config) (si : ScanInfo) (nd : (scannedPebs si).Nodup)
    (events : List Event) (st : State)
    (run : Run (step cfg) (regular cfg · ·) (ubiWlInitScan cfg si) events st) :
    Placed (scannedPebs si) st := by
  have inv := run.invariant (fun st => Inv (scannedPebs si) st∧NoFailure st)
    ⟨init_inv cfg nd,init_noFailure cfg si⟩ fun h reg ok =>
      ⟨step_inv nd h.1 (harmless_of_noFailure h.2 _) ok,step_noFailure h.2 reg ok⟩
  exact placed_of_inv nd inv.1

def smallConfig : Config := ⟨Rebalance.none,4096,16⟩

/-- All answers of a step that goes well. -/
def fine : Outcome := ⟨true,1,0,.ok,.moved,false⟩

/-- A scan that found two free eraseblocks. -/
def twoFree : ScanInfo := { free := [listPeb 0 7,listPeb 1 7] }

/-- A caller gets an eraseblock and has it scrubbed, which moves it. -/
def scrubRun : List Event :=
  [.get .shortterm,.scrub 0,.thread 1 fine,.thread 1 fine,.work,.thread 2 fine,.mover fine,
    .mover fine]

theorem run_placed_example :
    ∃ st,Run (step smallConfig) (regular smallConfig · ·) (ubiWlInitScan smallConfig twoFree)
      scrubRun st∧hands st=[0]∧Placed (scannedPebs twoFree) st := by
  refine ⟨_,run_of_eval rfl,rfl,?_⟩
  exact run_placed smallConfig twoFree (by decide) scrubRun _ (run_of_eval rfl)

/-- A scan that found eighteen used eraseblocks, and as many free ones. -/
def manyUsed : ScanInfo :=
  { volumes := .node .nil
      { volId := 0
        highestLnum := 17
        lebCount := 18
        dynamic := true
        usedEbs := 0
        lastDataSize := 0
        dataPad := 0
        compat := 0
        root := (List.range 18).foldl
          (fun t k => .node t ⟨7,k,k,false,false,k⟩ .nil) .nil } .nil
    free := (List.range 18).map fun k => listPeb (18+k) 7 }

/-- The source of a move cannot be read. -/
def unreadable : Outcome := ⟨true,1,0,.ok,.sourceRdErr,false⟩

/-- An eraseblock is scrubbed that cannot be read. -/
def errorRun (k : ℕ) : List Event :=
  [.scrub k,.thread (3*k+1) fine,.thread (3*k+1) fine,.work,.thread (3*k+2) fine,
    .mover unreadable,.mover fine,.mover fine,.work]

/-- After a move its source is in no place until an erasure is scheduled. It is
then erased although nobody put it. Two eraseblocks are in no place at all after
a source could not be read when there are too many erroneous eraseblocks. -/
theorem run_unplaced :
    (∃ st,Run (step smallConfig) (answered · ·) (ubiWlInitScan smallConfig twoFree) scrubRun st∧
      (containers st).count 0=0)∧
    (∃ st,Run (step smallConfig) (answered · ·) (ubiWlInitScan smallConfig twoFree)
      (scrubRun++[.mover fine,.work]) st∧0∈st.threads.flatMap erasing)∧
    ∃ st,Run (step smallConfig) (answered · ·) (ubiWlInitScan smallConfig manyUsed)
      ((List.range 17).flatMap errorRun++(errorRun 17).take 7) st∧(containers st).count 17=0 := by
  have ⟨st₁,run₁,h₁⟩ := exists_run (step smallConfig) answered (ubiWlInitScan smallConfig twoFree)
    scrubRun (fun st => (containers st).count 0==0) (by decide +kernel)
  have ⟨st₂,run₂,h₂⟩ := exists_run (step smallConfig) answered (ubiWlInitScan smallConfig twoFree)
    (scrubRun++[.mover fine,.work]) (fun st => decide (0∈st.threads.flatMap erasing))
    (by decide +kernel)
  have ⟨st₃,run₃,h₃⟩ := exists_run (step smallConfig) answered (ubiWlInitScan smallConfig manyUsed)
    ((List.range 17).flatMap errorRun++(errorRun 17).take 7)
    (fun st => (containers st).count 17==0) (by decide +kernel)
  exact ⟨⟨st₁,run₁,by simpa using h₁⟩,⟨st₂,run₂,of_decide_eq_true h₂⟩,⟨st₃,run₃,by simpa using h₃⟩⟩

/-! ## Entries given back -/

/-- The entries that a step reaches through the lookup table and looks into. -/
def dereferenced (st : State) : Event → List ℕ
  | .scrub e => if st.moveFrom=some e then [] else [e]
  | .thread i _ =>
    match st.threads.getD i .done with
    | .put e _ => [e]
    | _ => []
  | _ => []

/-- What a step looks into through the lookup table belongs to a caller. -/
theorem dereferenced_owned {ev : Event} (ok : step cfg st ev=some st') {e : ℕ}
    (he : e∈dereferenced st ev) : e∈owned st := by
  unfold dereferenced at he
  split at he
  next x =>
    simp only [step] at ok
    split at ok
    next hx =>
      split at he
      · simp at he
      · rw [List.mem_singleton] at he
        exact List.mem_append_left _ (he▸hx)
    · simp at ok
  next i o =>
    split at he
    next x torture ht =>
      rw [List.mem_singleton] at he
      subst he
      apply List.mem_append_right
      rw [List.mem_flatMap]
      exact ⟨_,List.mem_of_getElem? (thread_at ht (by simp)),List.mem_singleton_self e⟩
    · simp at he
  · simp at he

/-- No entry that was given back is known to anything that runs or may run. -/
theorem run_unfreed (cfg : Config) (si : ScanInfo) (nd : (scannedPebs si).Nodup)
    (events : List Event) (st : State)
    (run : Run (step cfg) (harmless · ·) (ubiWlInitScan cfg si) events st) :
    ∀ e∈st.freed,e∉containers st++hands st∧
      ∀ ev st',step cfg st ev=some st' → e∉dereferenced st ev := by
  have inv := run.invariant (Inv (scannedPebs si)) (init_inv cfg nd) fun h ok hstep =>
    step_inv nd h ok hstep
  intro e he
  have hpos := List.count_pos_iff.mpr he
  constructor
  · have := inv.total e
    have := count_le_one nd e
    apply List.count_eq_zero.mp
    simp only [containers,hands,List.count_append]
    omega
  · intro ev st' hstep hder
    have ⟨h1,h2⟩ := not_inUse nd inv (e := e) (by omega)
    rcases List.mem_append.mp (dereferenced_owned hstep hder) with k|k
    · exact List.count_eq_zero.mp h1 k
    · exact List.count_eq_zero.mp h2 k

/-- A scan that found an eraseblock to be erased. -/
def oneToErase : ScanInfo := { erase := [listPeb 0 7] }

/-- The erasure of an eraseblock that goes bad. -/
def badRun : List Event := [.work,.thread 1 ⟨true,-5,0,.ok,.moved,false⟩]

theorem run_unfreed_example :
    ∃ st,Run (step smallConfig) (harmless · ·) (ubiWlInitScan smallConfig oneToErase) badRun st∧
      st.freed=[0]∧0∉containers st++hands st := by
  have h := run_unfreed smallConfig oneToErase (by decide) badRun _ (run_of_eval rfl)
  exact ⟨_,run_of_eval rfl,rfl,(h 0 (List.mem_singleton_self 0)).1⟩

/-- No memory for the EC header, and then memory for a work: the entry was given
back and is scheduled for erasure. -/
theorem run_freed_scheduled :
    ∃ st,Run (step smallConfig) (fun _ _ => true) (ubiWlInitScan smallConfig oneToErase)
      [.work,.thread 1 ⟨false,1,0,.ok,.moved,false⟩,.thread 1 fine] st∧
      0∈st.freed∧0∈st.works.flatMap workPebs := by
  have ⟨st,run,h⟩ := exists_run (step smallConfig) (fun _ _ => true)
    (ubiWlInitScan smallConfig oneToErase)
    [.work,.thread 1 ⟨false,1,0,.ok,.moved,false⟩,.thread 1 fine]
    (fun st => decide (0∈st.freed∧0∈st.works.flatMap workPebs)) (by decide +kernel)
  exact ⟨st,run,of_decide_eq_true h⟩

end ArdroneKernel.UbiWlRuns
