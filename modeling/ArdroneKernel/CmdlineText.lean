import ArdroneKernel.CmdlineParts
import Mathlib.Tactic.IntervalCases

/-!
# Partition definitions as text

Definitions of devices and their partitions in the grammar of `mtdparts=`, and what
`newpart` makes of the text of the definitions of one device.
-/

namespace ArdroneKernel.CmdlineText

open CmdlineParts

/-! ## Definitions -/

/-- How a number is written. -/
inductive Radix where
  | dec
  | oct
  | hex

def Radix.base : Radix → ℕ
  | dec => 10
  | oct => 8
  | hex => 16

def Radix.mark : Radix → List Char
  | dec => []
  | oct => ['0']
  | hex => ['0','x']

/-- A number with a suffix. -/
structure Numeral where
  radix : Radix
  digits : ℕ
  suffix : Option Char
  known : ∀ c,suffix=some c → (suffixShift c).isSome

def Numeral.value (x : Numeral) : ℕ := x.digits*2^((x.suffix.bind suffixShift).getD 0)

def Numeral.text (x : Numeral) : List Char :=
  x.radix.mark++Nat.toDigits x.radix.base x.digits++x.suffix.toList

/-- `<partdef>` -/
structure PartDef where
  /-- The size, if the partition does not get the rest of the flash. -/
  size : Option Numeral
  offset : Option Numeral
  name : Option (List Char)
  ro : Bool
  lk : Bool
  page : ∀ x,size=some x → PAGE_SIZE≤x.value
  closed : ∀ t,name=some t → ')'∉t∧ '\x00'∉t

def PartDef.sizeText (p : PartDef) : List Char := (p.size.map Numeral.text).getD ['-']

def PartDef.offsetText (p : PartDef) : List Char := (p.offset.map fun x => '@'::x.text).getD []

def PartDef.nameText (p : PartDef) : List Char := (p.name.map fun t => '('::t++[')']).getD []

def PartDef.roText (p : PartDef) : List Char := if p.ro then ['r','o'] else []

def PartDef.lkText (p : PartDef) : List Char := if p.lk then ['l','k'] else []

def PartDef.text (p : PartDef) : List Char :=
  p.sizeText++(p.offsetText++(p.nameText++(p.roText++p.lkText)))

def partsText : List PartDef → List Char
  | [] => []
  | [p] => p.text
  | p::q::parts => p.text++ ','::partsText (q::parts)

/-- `< mtddef>` -/
structure DeviceDef where
  id : List Char
  parts : List PartDef
  plain : ':'∉id∧ ';'∉id∧ '\x00'∉id
  some : parts≠[]
  last : ∀ p∈parts.dropLast,p.size≠none

def DeviceDef.text (d : DeviceDef) : List Char := d.id++ ':'::partsText d.parts

def devicesText : List DeviceDef → List Char
  | [] => []
  | [d] => d.text
  | d::e::devices => d.text++ ';'::devicesText (e::devices)

/-! ## Numbers -/

/-- The characters that may follow the digits of a number. -/
def Ends (s : List Char) : Prop := ∀ c,s.head?=some c → digitValue c=none∧c≠ 'x'∧c≠ 'X'

/-- The characters that may follow a number. -/
def Stops (s : List Char) : Prop := Ends s∧∀ c,s.head?=some c → suffixShift c=none

theorem digitValue_digitChar {d : ℕ} (h : d<16) : digitValue d.digitChar=some d := by
  interval_cases d <;> decide

theorem base_cases (r : Radix) : 1<r.base∧r.base≤16 := by
  cases r <;> decide

/-- The digits of a number are read. -/
theorem readDigits_toDigits {b : ℕ} (hb : 1<b) (hb16 : b≤16) (n : ℕ) (s : List Char) :
    readDigits b 0 (Nat.toDigits b n++s)=readDigits b (n%2^64) s := by
  have step : ∀ (r d : ℕ) (s : List Char),d<b →
      readDigits b r (d.digitChar::s)=readDigits b ((r*b+d)%2^64) s := by
    intro r d s hd
    rw [readDigits,digitValue_digitChar (by omega)]
    exact if_neg (by omega)
  induction n using Nat.strongRecOn generalizing s with
  | ind n ih =>
    by_cases hn : n<b
    · rw [Nat.toDigits_of_lt_base hn,List.singleton_append,step 0 n s hn,Nat.zero_mul,Nat.zero_add]
    · have hlt : n/b<n := Nat.div_lt_self (by omega) hb
      rw [Nat.toDigits_of_base_le hb (by omega),List.append_assoc,ih (n/b) hlt,List.singleton_append,
        step _ _ _ (Nat.mod_lt _ (by omega))]
      congr 1
      have := Nat.div_add_mod n b
      rw [Nat.add_mod,Nat.mod_mul_mod,←Nat.add_mod,Nat.mul_comm,this]

theorem toDigits_head {b : ℕ} (hb : 1<b) (n : ℕ) :
    ∃ d l,Nat.toDigits b n=d.digitChar::l∧d<b∧(0<n → 0<d) := by
  induction n using Nat.strongRecOn with
  | ind n ih =>
    by_cases hn : n<b
    · exact ⟨n,[],Nat.toDigits_of_lt_base hn,hn,id⟩
    · have ⟨d,l,hd,hlt,hpos⟩ := ih (n/b) (Nat.div_lt_self (by omega) hb)
      refine ⟨d,l++[(n%b).digitChar],?_,hlt,fun _ => hpos (Nat.div_pos (by omega) (by omega))⟩
      rw [Nat.toDigits_of_base_le hb (by omega),hd]
      rfl

theorem digitChar_ne {d : ℕ} (h : d<16) : d.digitChar≠ 'x'∧d.digitChar≠ 'X' := by
  interval_cases d <;> decide

variable {s : List Char}

theorem guess_eight (h : ∀ c,s.head?=some c → c≠ 'x'∧c≠ 'X') :
    simpleGuessBase ('0'::s)=8 := by
  unfold simpleGuessBase
  split
  next x d l heq =>
    cases heq
    have := h x rfl
    exact if_neg fun hx => by tauto
  · rfl
  next hnot => exact absurd rfl (hnot s)

theorem readDigits_stop {b r : ℕ} (h : Ends s) : readDigits b r s=(r,s) := by
  cases s with
  | nil => rfl
  | cons c s => rw [readDigits,(h c rfl).1]

theorem guess_ten {c : Char} (h : c≠ '0') (s : List Char) : simpleGuessBase (c::s)=10 := by
  unfold simpleGuessBase
  split
  next heq => exact absurd (List.head_eq_of_cons_eq heq) h
  next heq => exact absurd (List.head_eq_of_cons_eq heq) h
  · rfl

/-- A number is read in the base in which it is written. -/
theorem strtoull_text (r : Radix) (n : ℕ) (h : Ends s) :
    simpleStrtoull (r.mark++Nat.toDigits r.base n++s)=(n%2^64,s) := by
  have ⟨hb,hb16⟩ := base_cases r
  have ⟨d,l,hd,hlt,hpos⟩ := toDigits_head hb n
  have hread := (readDigits_toDigits hb hb16 n s).trans (readDigits_stop h)
  have hx := digitChar_ne (show d<16 by omega)
  cases r with
  | dec =>
    change Nat.toDigits 10 n=d.digitChar::l at hd
    change readDigits (simpleGuessBase (Nat.toDigits 10 n++s)) 0
      (if simpleGuessBase (Nat.toDigits 10 n++s)=16 then _ else Nat.toDigits 10 n++s)=_
    rcases Nat.eq_zero_or_pos n with rfl|hn
    · -- a single zero is an octal number
      have hg : simpleGuessBase ('0'::s)=8 := guess_eight fun c hc => (h c hc).2
      change readDigits (simpleGuessBase ('0'::s)) 0
        (if simpleGuessBase ('0'::s)=16 then _ else '0'::s)=_
      rw [hg]
      exact readDigits_stop h
    · have hne : d.digitChar≠ '0' := fun h0 => (hpos hn).ne' (Nat.digitChar_eq_zero.mp h0)
      have hg : simpleGuessBase (Nat.toDigits 10 n++s)=10 := by
        rw [hd]
        exact guess_ten hne (l++s)
      rw [hg]
      exact hread
  | oct =>
    change Nat.toDigits 8 n=d.digitChar::l at hd
    have hg : simpleGuessBase ('0'::(Nat.toDigits 8 n++s))=8 := by
      refine guess_eight fun c hc => ?_
      rw [hd] at hc
      cases hc
      exact hx
    change readDigits (simpleGuessBase ('0'::(Nat.toDigits 8 n++s))) 0
      (if simpleGuessBase ('0'::(Nat.toDigits 8 n++s))=16 then _ else '0'::(Nat.toDigits 8 n++s))=_
    rw [hg]
    exact hread
  | hex =>
    change Nat.toDigits 16 n=d.digitChar::l at hd
    have hg : simpleGuessBase ('0':: 'x'::(Nat.toDigits 16 n++s))=16 := by
      rw [hd]
      refine if_pos ⟨Or.inl rfl,?_⟩
      rw [digitValue_digitChar hlt]
      rfl
    change readDigits (simpleGuessBase ('0':: 'x'::(Nat.toDigits 16 n++s))) 0
      (if simpleGuessBase ('0':: 'x'::(Nat.toDigits 16 n++s))=16 then Nat.toDigits 16 n++s else _)=_
    rw [hg]
    exact hread

/-- The characters of a suffix are not those of a number. -/
theorem suffix_stops {c : Char} (h : (suffixShift c).isSome) : digitValue c=none∧c≠ 'x'∧c≠ 'X' := by
  unfold suffixShift at h
  split_ifs at h with hg hm hk
  · rcases hg with rfl|rfl <;> decide
  · rcases hm with rfl|rfl <;> decide
  · rcases hk with rfl|rfl <;> decide
  · cases h

theorem memparse_text (x : Numeral) (h : Stops s) :
    memparse (x.text++s)=(x.value%2^64,s) := by
  unfold Numeral.text Numeral.value memparse
  have hknown := x.known
  cases hs : x.suffix with
  | none =>
    rw [Option.toList_none,List.append_nil,strtoull_text x.radix x.digits h.1]
    have hvalue : x.digits*2^(((none : Option Char).bind suffixShift).getD 0)=x.digits := by
      rw [Option.bind_none,Option.getD_none,pow_zero,Nat.mul_one]
    rw [hvalue]
    cases s with
    | nil => rfl
    | cons c t =>
      dsimp only
      rw [h.2 c rfl]
  | some c =>
    have hc := hknown c hs
    have hends : Ends (c::s) := by
      intro c' hc'
      cases hc'
      exact suffix_stops hc
    have ⟨k,hk⟩ := Option.isSome_iff_exists.mp hc
    rw [Option.toList_some,List.append_assoc,List.singleton_append,
      strtoull_text x.radix x.digits hends,Option.bind_some]
    dsimp only
    rw [hk,Option.getD_some]
    dsimp only
    rw [Nat.mod_mul_mod]

/-! ## One definition -/

theorem stops_cons {c : Char} (h : digitValue c=none∧c≠ 'x'∧c≠ 'X'∧suffixShift c=none)
    (s : List Char) : Stops (c::s) := by
  constructor
  · intro c' hc
    cases hc
    exact ⟨h.1,h.2.1,h.2.2.1⟩
  · intro c' hc
    cases hc
    exact h.2.2.2

/-- What may follow a definition. -/
def Ended (s : List Char) : Prop := s=[]∨(∃ t,s= ','::t)∨∃ t,s= ';'::t

variable {p : PartDef} {s : List Char} (p : PartDef)

theorem Ended.stops (h : Ended s) : Stops s := by
  rcases h with rfl|⟨t,rfl⟩|⟨t,rfl⟩
  · exact ⟨fun _ => nofun,fun _ => nofun⟩
  · exact stops_cons (by decide) t
  · exact stops_cons (by decide) t

theorem lk_stops (h : Stops s) : Stops (p.lkText++s) := by
  unfold PartDef.lkText
  split
  · exact stops_cons (by decide) _
  · exact h

theorem ro_stops (h : Stops s) : Stops (p.roText++s) := by
  unfold PartDef.roText
  split
  · exact stops_cons (by decide) _
  · exact h

theorem name_stops (h : Stops s) : Stops (p.nameText++s) := by
  unfold PartDef.nameText
  cases p.name with
  | none => exact h
  | some t => exact stops_cons (by decide) _

theorem offset_stops (h : Stops s) : Stops (p.offsetText++s) := by
  unfold PartDef.offsetText
  cases p.offset with
  | none => exact h
  | some x => exact stops_cons (by decide) _

theorem Ended.head (h : Ended s) : ∀ c,s.head?=some c → c= ','∨c= ';' := by
  rcases h with rfl|⟨t,rfl⟩|⟨t,rfl⟩
  · exact fun _ => nofun
  · exact fun c hc => .inl (Option.some.inj hc).symm
  · exact fun c hc => .inr (Option.some.inj hc).symm

theorem lk_head (h : Ended s) :
    ∀ c,(p.lkText++s).head?=some c → c= 'l'∨c= ','∨c= ';' := by
  unfold PartDef.lkText
  split
  · exact fun c hc => .inl (Option.some.inj hc).symm
  · exact fun c hc => .inr (h.head c hc)

theorem ro_head (h : Ended s) :
    ∀ c,(p.roText++(p.lkText++s)).head?=some c → c= 'r'∨c= 'l'∨c= ','∨c= ';' := by
  unfold PartDef.roText
  split
  · exact fun c hc => .inl (Option.some.inj hc).symm
  · exact fun c hc => .inr (lk_head p h c hc)

theorem name_head (h : Ended s) :
    ∀ c,(p.nameText++(p.roText++(p.lkText++s))).head?=some c →
      c= '('∨c= 'r'∨c= 'l'∨c= ','∨c= ';' := by
  unfold PartDef.nameText
  cases p.name with
  | none => exact fun c hc => .inr (ro_head p h c hc)
  | some t => exact fun c hc => .inl (Option.some.inj hc).symm 

/-- The size that is meant. -/
def PartDef.sizeField (p : PartDef) : ℕ := (p.size.map Numeral.value).getD SIZE_REMAINING

/-- The offset that is meant. -/
def PartDef.offsetField (p : PartDef) : ℕ := (p.offset.map Numeral.value).getD OFFSET_CONTINUOUS

/-- The flags that are meant. -/
def PartDef.flags (p : PartDef) : ℕ :=
  (if p.ro then MTD_WRITEABLE else 0) ||| (if p.lk then MTD_POWERUP_LOCK else 0)

theorem text_head (x : Numeral) (s : List Char) : ∃ d l,x.text++s=d.digitChar::l∧d<16 := by
  have ⟨hb,hb16⟩ := base_cases x.radix
  have ⟨d,l,hd,hlt,_⟩ := toDigits_head hb x.digits
  have hd16 : d<16 := by omega
  unfold Numeral.text
  cases hr : x.radix with
  | dec =>
    rw [hr] at hd
    rw [hd]
    exact ⟨d,_,rfl,hd16⟩
  | oct => exact ⟨0,_,rfl,by decide⟩
  | hex => exact ⟨0,_,rfl,by decide⟩

theorem readSize_text (h : Stops s) : readSize (p.sizeText++s)=
    if p.sizeField%2^32<PAGE_SIZE then none else some (p.sizeField%2^32,s) := by
  unfold PartDef.sizeText PartDef.sizeField
  cases p.size with
  | none => rfl
  | some x =>
    have ⟨d,l,hhead,hd⟩ := text_head x s
    change readSize (x.text++s)=if x.value%2^32<PAGE_SIZE then none else some (x.value%2^32,s)
    unfold readSize
    split
    next heq =>
      rw [hhead] at heq
      have hminus := List.head_eq_of_cons_eq heq
      interval_cases d <;> cases hminus
    · dsimp only
      rw [memparse_text x h,Nat.mod_mod_of_dvd _ (by decide)]

theorem readOffset_text (h : Stops s) (hhead : ∀ c,s.head?=some c → c≠ '@') :
    readOffset (p.offsetText++s)=(p.offsetField%2^32,s) := by
  unfold PartDef.offsetText PartDef.offsetField
  cases p.offset with
  | none =>
    change readOffset s=(OFFSET_CONTINUOUS,s)
    unfold readOffset
    split
    · exact absurd rfl (hhead _ rfl)
    · rfl
  | some x =>
    change ((memparse (x.text++s)).1%2^32,(memparse (x.text++s)).2)=_
    rw [memparse_text x h]
    dsimp only [Option.map_some,Option.getD_some]
    rw [Nat.mod_mod_of_dvd _ (by decide)]

theorem readName_text (hhead : ∀ c,s.head?=some c → c≠ '(') :
    readName (p.nameText++s)=some (p.name,s) := by
  have hclosed := p.closed
  unfold PartDef.nameText
  cases hname : p.name with
  | none =>
    change readName s=some (none,s)
    unfold readName
    split
    · exact absurd rfl (hhead _ rfl)
    · rfl
  | some t =>
    have ht := (hclosed t hname).1
    change readName ('('::(t++[')'])++s)=some (some t,s)
    have happ : '('::(t++[')'])++s= '('::(t++ ')'::s) := by simp
    rw [happ]
    have hmem : ')'∈t++ ')'::s := List.mem_append_right _ List.mem_cons_self
    have hall : ∀ c∈t,(decide (c≠ ')'))=true := by
      intro c hc
      refine decide_eq_true fun heq => ht (heq▸hc)
    refine (if_pos hmem).trans ?_
    rw [List.takeWhile_append_of_pos hall,List.dropWhile_append_of_pos hall]
    simp

theorem readWriteable_text (hhead : ∀ c,s.head?=some c → c≠ 'r') :
    readWriteable (p.roText++s)=(if p.ro then MTD_WRITEABLE else 0,s) := by
  unfold PartDef.roText
  cases p.ro with
  | true => rfl
  | false =>
    change readWriteable s=(0,s)
    unfold readWriteable
    split
    · exact absurd rfl (hhead _ rfl)
    · rfl

theorem readLock_text (hhead : ∀ c,s.head?=some c → c≠ 'l') :
    readLock (p.lkText++s)=(if p.lk then MTD_POWERUP_LOCK else 0,s) := by
  unfold PartDef.lkText
  cases p.lk with
  | true => rfl
  | false =>
    change readLock s=(0,s)
    unfold readLock
    split
    · exact absurd rfl (hhead _ rfl)
    · rfl

/-! ## The definitions of a device -/

/-- What `newpart` builds from definitions, when there is memory. -/
def buildParts : ℕ → ℕ → List PartDef → List Char → Option Built
  | _,_,[],_ => none
  | thisPart,extraMemSize,p::parts,rest =>
    if p.sizeField%2^32<PAGE_SIZE then none
    else
      let extraMemSize := extraMemSize+nameLen p.name+1
      let built := match parts with
        | [] => allocParts true (thisPart+1) extraMemSize rest
        | q::parts =>
          if p.sizeField%2^32=SIZE_REMAINING then none
          else buildParts (thisPart+1) extraMemSize (q::parts) rest
      built.map (enterPart thisPart (p.sizeField%2^32) (p.offsetField%2^32) p.flags p.name)

/-- One definition is read, whatever comes after it. -/
theorem newpart_one (fuel thisPart extraMemSize : ℕ) (p : PartDef) (h : Ended s) :
    newpart true (fuel+1) (p.text++s) thisPart extraMemSize=
      if p.sizeField%2^32<PAGE_SIZE then none
      else
        let extraMemSize := extraMemSize+nameLen p.name+1
        let built := match s with
          | ','::s =>
            if p.sizeField%2^32=SIZE_REMAINING then none
            else newpart true fuel s (thisPart+1) extraMemSize
          | s => allocParts true (thisPart+1) extraMemSize s
        built.map (enterPart thisPart (p.sizeField%2^32) (p.offsetField%2^32) p.flags p.name) := by
  have hlk := lk_stops p h.stops
  have hro := ro_stops p hlk
  have hname := name_stops p hro
  have happ : p.text++s=
      p.sizeText++(p.offsetText++(p.nameText++(p.roText++(p.lkText++s)))) := by
    unfold PartDef.text
    simp only [List.append_assoc]
  rw [newpart,happ,readSize_text p (offset_stops p hname)]
  by_cases hsize : p.sizeField%2^32<PAGE_SIZE
  · rw [if_pos hsize,if_pos hsize]
  rw [if_neg hsize,if_neg hsize]
  dsimp only
  rw [readOffset_text p hname fun c hc => by
      rcases name_head p h c hc with rfl|rfl|rfl|rfl|rfl <;> decide]
  rw [readName_text p fun c hc => by
      rcases ro_head p h c hc with rfl|rfl|rfl|rfl <;> decide]
  dsimp only
  rw [readWriteable_text p fun c hc => by
      rcases lk_head p h c hc with rfl|rfl|rfl <;> decide]
  rw [readLock_text p fun c hc => by
      rcases h.head c hc with rfl|rfl <;> decide]
  rfl

/-- The definitions of a device are read. -/
theorem newpart_text {parts : List PartDef} (fuel thisPart extraMemSize : ℕ)
    (hfuel : parts.length≤fuel) (hparts : parts≠[]) (h : s=[]∨∃ t,s= ';'::t) :
    newpart true fuel (partsText parts++s) thisPart extraMemSize=
      buildParts thisPart extraMemSize parts s := by
  induction parts generalizing fuel thisPart extraMemSize with
  | nil => exact absurd rfl hparts
  | cons p parts ih =>
    cases fuel with
    | zero => cases hfuel
    | succ fuel =>
      cases parts with
      | nil =>
        rw [partsText,newpart_one fuel thisPart extraMemSize p (h.imp_right .inr),buildParts]
        rcases h with rfl|⟨t,rfl⟩ <;> rfl
      | cons q parts =>
        have happ : partsText (p::q::parts)++s=p.text++ ','::(partsText (q::parts)++s) := by
          rw [partsText,List.append_assoc]
          rfl
        rw [happ,newpart_one fuel thisPart extraMemSize p (.inr (.inl ⟨_,rfl⟩)),buildParts]
        refine if_congr Iff.rfl rfl ?_
        change Option.map _ (if p.sizeField%2^32=SIZE_REMAINING then none
          else newpart true fuel (partsText (q::parts)++s) _ _)=_
        rw [ih fuel _ _ (Nat.le_of_succ_le_succ hfuel) nofun]

/-- A piece of memory that was allocated and filled. -/
def buildDevice (d : DeviceDef) (rest : List Char) : Option Built :=
  buildParts 0 (d.id.length+1+DEVICE_SIZE+(POINTER_SIZE-1)) d.parts rest

theorem length_partsText (parts : List PartDef) : parts.length≤ (partsText parts).length+1 := by
  induction parts with
  | nil => exact Nat.zero_le _
  | cons p parts ih =>
    cases parts with
    | nil => exact Nat.le_add_left _ _
    | cons q parts =>
      rw [partsText]
      simp only [List.length_append,List.length_cons] at ih ⊢
      omega

theorem buildParts_rest {thisPart extraMemSize : ℕ} {parts : List PartDef} {b : Built}
    (h : buildParts thisPart extraMemSize parts s=some b) : b.rest=s := by
  induction parts generalizing thisPart extraMemSize b with
  | nil => cases h
  | cons p parts ih =>
    rw [buildParts] at h
    by_cases hsize : p.sizeField%2^32<PAGE_SIZE
    · rw [if_pos hsize] at h
      cases h
    rw [if_neg hsize] at h
    have ⟨b',hb',heq⟩ := Option.map_eq_some_iff.mp h
    subst heq
    cases parts with
    | nil =>
      cases hb'
      rfl
    | cons q parts =>
      split_ifs at hb'
      exact (ih hb' : b'.rest=s)

/-- The definitions of a device are read, whatever comes after them. -/
theorem setupLoop_text (d : DeviceDef) (fuel : ℕ) (partitions : List CmdlineMtdPartition)
    (h : s=[]∨∃ t,s= ';'::t) : setupLoop (fun _ => true) (fuel+1) (d.text++s) partitions=
      match buildDevice d s with
      | none => (false,partitions)
      | some b =>
        let partitions := enterDevice d.id b::partitions
        match b.rest with
        | [] => (true,partitions)
        | ';'::s => setupLoop (fun _ => true) fuel s partitions
        | _ => (false,partitions) := by
  have happ : d.text++s=d.id++ ':'::(partsText d.parts++s) := by
    unfold DeviceDef.text
    rw [List.append_assoc]
    rfl
  have hall : ∀ c∈d.id,(decide (c≠ ':'))=true :=
    fun c hc => decide_eq_true fun heq => d.plain.1 (heq▸hc)
  have hdrop : (d.text++s).dropWhile (·≠ ':')= ':'::(partsText d.parts++s) := by
    rw [happ,List.dropWhile_append_of_pos hall]
    rfl
  have htake : (d.text++s).takeWhile (·≠ ':')=d.id := by
    rw [happ,List.takeWhile_append_of_pos hall]
    exact List.append_nil _
  have hlen := length_partsText d.parts
  have hbuilt : newpart true ((partsText d.parts++s).length+1) (partsText d.parts++s) 0
      (d.id.length+1+DEVICE_SIZE+(POINTER_SIZE-1))=buildDevice d s := by
    refine newpart_text _ _ _ ?_ d.some h
    rw [List.length_append]
    omega
  rw [setupLoop,hdrop,htake]
  dsimp only
  rewrite [hbuilt]
  cases buildDevice d s <;> rfl

end ArdroneKernel.CmdlineText
