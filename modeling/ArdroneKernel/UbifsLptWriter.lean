import ArdroneKernel.NextFit
import ArdroneKernel.UbifsLptFormat
import ArdroneKernel.UbifsLptRoundTrip

/-!
# LEBs that are filled

Everything that has been packed is in the buffer or on flash where the log says
it is, and the table of the area accounts for every byte. The buffer is changed
for the next LEB where next fit opens a new bin.
-/

namespace ArdroneKernel.UbifsLpt

open NextFit

variable {c : LptInfo} {fails : ℕ → Option ℤ} {w : Writer} {α β : Type}

/-- A function returns, and has a property when it does not fail. -/
def Yields (x : Option (Except ℤ α)) (Q : α → Prop) : Prop := ∃ r,x=some r∧∀ a,r=.ok a → Q a

theorem Yields.ok {a : α} {Q : α → Prop} (h : Q a) : Yields (some (.ok a)) Q :=
  ⟨_,rfl,fun _ e => by cases e; exact h⟩

theorem Yields.error (err : ℤ) (Q : α → Prop) : Yields (some (.error err)) Q :=
  ⟨_,rfl,fun _ e => by cases e⟩

theorem Yields.bind {x : Option (Except ℤ α)} {g : α → Option (Except ℤ β)} {P : α → Prop}
    {Q : β → Prop} (hx : Yields x P) (hg : ∀ a,P a → Yields (g a) Q) : Yields (andThen x g) Q := by
  have ⟨r,hr,hP⟩ := hx
  rw [hr]
  cases r with
  | error err => exact Yields.error err Q
  | ok a => exact hg a (hP a rfl)

/-! ## The log -/

/-- What the log has in a LEB. -/
def used (log : List Placed) (lnum : ℕ) : ℕ :=
  (log.map fun x => if x.lnum=lnum then x.bytes.length else 0).sum

theorem used_append (log log' : List Placed) (lnum : ℕ) :
    used (log++log') lnum=used log lnum+used log' lnum := by
  unfold used
  rw [List.map_append,List.sum_append]

/-- A part of some bytes. -/
def slice (data : List UInt8) (offs n : ℕ) : List UInt8 := (data.drop offs).take n

theorem slice_append_left {xs ys : List UInt8} {offs n : ℕ} (h : offs+n≤xs.length) :
    slice (xs++ys) offs n=slice xs offs n := by
  unfold slice
  rw [List.drop_append_of_le_length (by omega),List.take_append_of_le_length]
  rw [List.length_drop]
  omega

theorem slice_take {xs : List UInt8} {offs n len : ℕ} (h : offs+n≤len) :
    slice (xs.take len) offs n=slice xs offs n := by
  unfold slice
  rw [List.drop_take,List.take_take,Nat.min_eq_left (by omega)]

/-- Something is where the log says it is. -/
def InPlace (w : Writer) (x : Placed) : Prop :=
  (x.lnum<w.lnum∧∃ data,w.flash x.lnum=some data∧slice data x.offs x.bytes.length=x.bytes)∨
    (x.lnum=w.lnum∧x.offs+x.bytes.length≤w.len∧slice w.buf x.offs x.bytes.length=x.bytes)

/-- The LEBs so far. -/
structure Filled (c : LptInfo) (w : Writer) : Prop where
  first : c.lptFirst≤w.lnum
  len : w.len≤c.lebSize
  buf : w.buf.length=c.lebSize
  ltabLength : w.ltab.length=c.lptLebs
  /-- LEBs that are to come are free. -/
  free : ∀ i<c.lptLebs,w.lnum≤c.lptFirst+i → w.ltab[i]?=some ⟨c.lebSize,0,false,false⟩
  /-- Every byte of a LEB that is full is accounted for. -/
  full : ∀ i,c.lptFirst+i<w.lnum → ∃ l,w.ltab[i]?=some l∧
    l.free+l.dirty+used w.log (c.lptFirst+i)=c.lebSize∧l.tgc=false∧l.cmt=false
  usedNow : used w.log w.lnum=w.len
  usedLater : ∀ lnum,w.lnum<lnum → used w.log lnum=0
  flash : ∀ lnum data,w.flash lnum=some data →
    c.lptFirst≤lnum∧lnum<w.lnum∧data.length≤c.lebSize
  inPlace : ∀ x∈w.log,c.lptFirst≤x.lnum∧x.offs+x.bytes.length≤c.lebSize∧InPlace w x

/-- Where the writer is. -/
def Writer.cursor (w : Writer) : Cursor := ⟨w.lnum,w.len⟩

/-! ## Steps -/

/-- A node goes into the buffer. -/
theorem put_yields (hw : Filled c w) {sz : ℕ} (hfits : w.len+sz≤c.lebSize) (item : Item)
    {pack : List UInt8 → Option (List UInt8)} {P : List UInt8 → Prop}
    (hpack : ∀ old : List UInt8,old.length=sz →
      ∃ bytes,pack old=some bytes∧bytes.length=sz∧P bytes) :
    Yields (w.put item sz pack) fun w' => Filled c w'∧w'.cursor=⟨w.lnum,w.len+sz⟩∧
      w'.ltab=w.ltab∧∃ bytes,P bytes∧w'.log=w.log++[⟨item,w.lnum,w.len,bytes⟩] := by
  have hbuf := hw.buf
  have hold : ((w.buf.drop w.len).take sz).length=sz := by
    rw [List.length_take,List.length_drop]
    omega
  have ⟨bytes,hbytes,hlen,hP⟩ := hpack _ hold
  have htake : (w.buf.take w.len).length=w.len := by
    rw [List.length_take]
    omega
  unfold Writer.put
  rw [hbytes]
  refine Yields.ok ⟨?_,rfl,rfl,bytes,hP,rfl⟩
  have husedNew : ∀ lnum,used (w.log++[⟨item,w.lnum,w.len,bytes⟩]) lnum=
      used w.log lnum+if w.lnum=lnum then sz else 0 := by
    intro lnum
    rw [used_append,← hlen]
    exact congrArg (used w.log lnum+·) (Nat.add_zero _)
  -- What is before the end of the buffer stays.
  have hkept : ∀ offs n,offs+n≤w.len →
      slice (w.buf.take w.len++bytes++w.buf.drop (w.len+sz)) offs n=slice w.buf offs n := by
    intro offs n h
    rw [List.append_assoc,slice_append_left (by omega),slice_take h]
  constructor
  · exact hw.first
  · exact hfits
  · rw [List.length_append,List.length_append,htake,hlen,List.length_drop]
    omega
  · exact hw.ltabLength
  · exact hw.free
  · intro i hi
    have ⟨l,hl,hsum,hflags⟩ := hw.full i hi
    refine ⟨l,hl,?_,hflags⟩
    dsimp only at hi ⊢
    rwa [husedNew,if_neg (by omega)]
  · rw [husedNew,if_pos rfl,hw.usedNow]
  · intro lnum hlt
    dsimp only at hlt ⊢
    rw [husedNew,if_neg (by omega),hw.usedLater lnum hlt]
  · exact hw.flash
  · intro x hx
    rcases List.mem_append.mp hx with hx|hx
    · have ⟨hfirst,hroom,hplace⟩ := hw.inPlace x hx
      refine ⟨hfirst,hroom,?_⟩
      rcases hplace with hplace|⟨hlnum,hend,hslice⟩
      · exact .inl hplace
      · refine .inr ⟨hlnum,Nat.le_add_right_of_le hend,?_⟩
        exact (hkept _ _ hend).trans hslice
    · cases List.mem_singleton.mp hx
      dsimp only
      refine ⟨hw.first,by omega,.inr ⟨rfl,by dsimp only; omega,?_⟩⟩
      dsimp only
      unfold slice
      rw [List.append_assoc,List.drop_append_of_le_length (by omega),
        List.drop_of_length_le (by omega),List.nil_append,List.take_append_of_le_length (by omega),
        List.take_length]

theorem le_align (n : ℕ) {a : ℕ} (ha : 0<a) : n≤align n a := by
  unfold align
  have h := Nat.div_add_mod (n+a-1) a
  have hlt := Nat.mod_lt (n+a-1) ha
  rw [Nat.mul_comm] at h
  omega

/-- The entry of a LEB of the area is set. -/
theorem setLtab_eq (hlen : w.ltab.length=c.lptLebs) {lnum : ℕ} (hfirst : c.lptFirst≤lnum)
    (hlast : lnum<c.lptFirst+c.lptLebs) (free dirty : ℕ)
    (hfree : w.ltab[lnum-c.lptFirst]?=some ⟨c.lebSize,0,false,false⟩) :
    setLtab c w.ltab lnum free dirty=
      some (w.ltab.set (lnum-c.lptFirst) ⟨free,dirty,false,false⟩) := by
  unfold setLtab Info.lptLast
  rw [if_pos ⟨hfirst,by omega⟩,hfree]
  rfl

/-- The table of the area with the space of the LEB that is filled. -/
def closedLtab (c : LptInfo) (w : Writer) : List LptLprops :=
  w.ltab.set (w.lnum-c.lptFirst)
    ⟨c.lebSize-align w.len c.minIoSize,align w.len c.minIoSize-w.len,false,false⟩

theorem setLtab_closed (hw : Filled c w) (hlast : w.lnum<c.lptFirst+c.lptLebs) :
    setLtab c w.ltab w.lnum (c.lebSize-align w.len c.minIoSize)
      (align w.len c.minIoSize-w.len)=some (closedLtab c w) := by
  have hfirst := hw.first
  exact setLtab_eq hw.ltabLength hfirst hlast _ _ (hw.free _ (by omega) (by omega))

/-- A LEB is written as it is in the buffer, and is full. -/
theorem change_filled (hw : Filled c w) (hio : 0<c.minIoSize)
    (hlast : w.lnum<c.lptFirst+c.lptLebs) {w' : Writer}
    (h : {w with ltab := closedLtab c w}.change c fails=.ok w') :
    Filled c {w' with lnum := w.lnum+1,len := 0}∧w'.log=w.log∧w'.lnum=w.lnum∧w'.len=w.len∧
      align w.len c.minIoSize≤c.lebSize∧w'.ltab=closedLtab c w := by
  have hle := le_align w.len hio
  have hbuf := hw.buf
  have hlen := hw.len
  have hfirst := hw.first
  have hlength := hw.ltabLength
  have htake : (w.buf.take w.len).length=w.len := by
    rw [List.length_take]
    omega
  have hdata : (w.buf.take w.len++List.replicate (align w.len c.minIoSize-w.len) 0xff).length=
      align w.len c.minIoSize := by
    rw [List.length_append,htake,List.length_replicate]
    omega
  unfold Writer.change ubiLebChange at h
  dsimp only at h
  rw [hdata] at h
  split at h
  · cases h
  next hno =>
    split at hno
    · cases hno
    next hroom =>
      cases h
      have hroom := Nat.not_lt.mp hroom
      refine ⟨?_,rfl,rfl,rfl,hroom,rfl⟩
      have hslice : ∀ offs n,offs+n≤w.len → slice (w.buf.take w.len++
          List.replicate (align w.len c.minIoSize-w.len) 0xff) offs n=slice w.buf offs n := by
        intro offs n h
        rw [slice_append_left (by omega),slice_take h]
      constructor
      · exact Nat.le_succ_of_le hfirst
      · exact Nat.zero_le _
      · rw [List.length_append,hdata,List.length_drop]
        omega
      · exact (List.length_set ..).trans hlength
      · intro i hi hle'
        dsimp only at hle'
        unfold closedLtab
        rw [List.getElem?_set_ne (by omega)]
        exact hw.free i hi (by omega)
      · intro i hi
        dsimp only at hi ⊢
        unfold closedLtab
        by_cases he : c.lptFirst+i=w.lnum
        · refine ⟨_,by rw [show w.lnum-c.lptFirst=i by omega,List.getElem?_set_self (by omega)],
            ?_,rfl,rfl⟩
          rw [he,hw.usedNow]
          dsimp only
          omega
        · rw [List.getElem?_set_ne (by omega)]
          exact hw.full i (by omega)
      · exact hw.usedLater _ (Nat.lt_succ_self _)
      · intro lnum hlt
        exact hw.usedLater lnum (Nat.lt_of_succ_lt hlt)
      · intro lnum data hflash
        dsimp only at hflash
        by_cases he : lnum=w.lnum
        · rw [he,Function.update_self] at hflash
          cases hflash
          exact ⟨he▸hfirst,he▸Nat.lt_succ_self _,hdata.trans_le hroom⟩
        · rw [Function.update_of_ne he] at hflash
          have ⟨hf,hl,hd⟩ := hw.flash lnum data hflash
          exact ⟨hf,Nat.lt_succ_of_lt hl,hd⟩
      · intro x hx
        have ⟨hf,hr,hplace⟩ := hw.inPlace x hx
        refine ⟨hf,hr,.inl ?_⟩
        rcases hplace with ⟨hlt,data,hflash,hs⟩|⟨hlnum,hend,hs⟩
        · refine ⟨Nat.lt_succ_of_lt hlt,data,?_,hs⟩
          dsimp only
          rw [Function.update_of_ne (by omega)]
          exact hflash
        · refine ⟨hlnum▸Nat.lt_succ_self _,_,?_,(hslice _ _ hend).trans hs⟩
          dsimp only
          rw [hlnum,Function.update_self]

/-- A node that has no room starts a LEB. -/
theorem breakLeb_yields (hw : Filled c w) (hio : 0<c.minIoSize) {sz : ℕ}
    (hlast : (w.cursor.place c.lebSize sz).bin<c.lptFirst+c.lptLebs) :
    Yields (w.breakLeb c fails sz) fun w' =>
      Filled c w'∧w'.cursor=w.cursor.place c.lebSize sz∧w'.log=w.log := by
  unfold Writer.breakLeb
  by_cases hfull : c.lebSize<w.len+sz
  · have hplace : w.cursor.place c.lebSize sz=⟨w.lnum+1,0⟩ := Cursor.place_of_full hfull
    rw [hplace] at hlast ⊢
    rw [if_pos hfull]
    dsimp only at hlast ⊢
    rw [setLtab_closed hw (by omega)]
    refine ⟨_,rfl,fun w' h => ?_⟩
    dsimp only at h
    cases hchange : {w with ltab := closedLtab c w}.change c fails with
    | error err =>
      rw [hchange] at h
      cases h
    | ok w'' =>
      rw [hchange] at h
      cases h
      have ⟨hfilled,hlog,hlnum,_⟩ := change_filled hw hio (by omega) hchange
      rw [hlnum]
      exact ⟨hfilled,rfl,hlog⟩
  · rw [if_neg hfull]
    exact Yields.ok ⟨hw,(Cursor.place_of_fits (Nat.not_lt.mp hfull)).symm,rfl⟩

end ArdroneKernel.UbifsLpt
