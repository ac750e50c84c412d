import Mathlib.Algebra.Order.Ring.Int

/-!
# Partitions on the command line

The parser of `drivers/mtd/cmdlinepart.c` for `mtdparts=`: one piece of memory is
allocated for each device when its last partition is found, and filled with the
partitions and their names from the last to the first, then with the description of the
device and its name. The sizes are those of a 32-bit machine.
-/

namespace ArdroneKernel.CmdlineParts

/-- `SIZE_REMAINING` -/
def SIZE_REMAINING : ℕ := 4294967295

/-- `OFFSET_CONTINUOUS` -/
def OFFSET_CONTINUOUS : ℕ := 4294967295

def PAGE_SIZE : ℕ := 4096

def MTD_WRITEABLE : ℕ := 0x400

def MTD_POWERUP_LOCK : ℕ := 0x2000

/-- `sizeof(struct mtd_partition)` -/
def PARTITION_SIZE : ℕ := 32

/-- `sizeof(struct cmdline_mtd_partition)` -/
def DEVICE_SIZE : ℕ := 16

/-- `sizeof(void*)` -/
def POINTER_SIZE : ℕ := 4

def ENOMEM : ℤ := 12

/-! ## Numbers -/

/-- The value of a hexadecimal digit. -/
def digitValue (c : Char) : Option ℕ :=
  if '0'≤c∧c≤ '9' then some (c.toNat-48)
  else if 'a'≤c∧c≤ 'f' then some (c.toNat-87)
  else if 'A'≤c∧c≤ 'F' then some (c.toNat-55)
  else none

/-- `simple_guess_base` -/
def simpleGuessBase : List Char → ℕ
  | '0'::x::d::_ => if (x= 'x'∨x= 'X')∧(digitValue d).isSome then 16 else 8
  | '0'::_ => 8
  | _ => 10

/-- The loop of `simple_strtoull`. -/
def readDigits (base : ℕ) : ℕ → List Char → ℕ×List Char
  | result,[] => (result,[])
  | result,c::s =>
    match digitValue c with
    | some value =>
      if base≤value then (result,c::s) else readDigits base ((result*base+value)%2^64) s
    | none => (result,c::s)

/-- `simple_strtoull` with a base that is to be guessed. -/
def simpleStrtoull (s : List Char) : ℕ×List Char :=
  let base := simpleGuessBase s
  readDigits base 0 (if base=16 then s.drop 2 else s)

/-- The power of two of a suffix. -/
def suffixShift (c : Char) : Option ℕ :=
  if c= 'G'∨c= 'g' then some 30
  else if c= 'M'∨c= 'm' then some 20
  else if c= 'K'∨c= 'k' then some 10
  else none

/-- `memparse` -/
def memparse (s : List Char) : ℕ×List Char :=
  let r := simpleStrtoull s
  match r.2 with
  | c::t =>
    match suffixShift c with
    | some k => (r.1*2^k%2^64,t)
    | none => r
  | [] => r

/-! ## Partitions -/

/-- `struct mtd_partition` -/
structure MtdPartition where
  /-- Where the name is in the memory of the device. -/
  name : ℕ
  size : ℕ
  offset : ℕ
  maskFlags : ℕ
  deriving DecidableEq

/-- The size at the beginning of a definition, `unsigned long`. -/
def readSize : List Char → Option (ℕ×List Char)
  | '-'::s => some (SIZE_REMAINING,s)
  | s =>
    let r := memparse s
    if r.1%2^32<PAGE_SIZE then none else some (r.1%2^32,r.2)

/-- The offset, `unsigned long`. -/
def readOffset : List Char → ℕ×List Char
  | '@'::s => ((memparse s).1%2^32,(memparse s).2)
  | s => (OFFSET_CONTINUOUS,s)

/-- The name, if there is one. -/
def readName : List Char → Option (Option (List Char)×List Char)
  | '('::s =>
    if ')'∈s then some (some (s.takeWhile (·≠ ')')),(s.dropWhile (·≠ ')')).tail) else none
  | s => some (none,s)

/-- `ro` -/
def readWriteable : List Char → ℕ×List Char
  | 'r':: 'o'::s => (MTD_WRITEABLE,s)
  | s => (0,s)

/-- `lk` -/
def readLock : List Char → ℕ×List Char
  | 'l':: 'k'::s => (MTD_POWERUP_LOCK,s)
  | s => (0,s)

/-- `name_len` -/
def nameLen (name : Option (List Char)) : ℕ := (name.map List.length).getD 13

/-- A number in at least three digits. -/
def pad3 (n : ℕ) : List Char :=
  List.replicate (3-(Nat.toDigits 10 n).length) '0'++Nat.toDigits 10 n

/-- The name of a partition that is given none. -/
def generated (thisPart : ℕ) : List Char := "Partition_".toList++pad3 thisPart

/-- Memory with some characters stored. -/
def store (mem : ℕ → Char) (a : ℕ) (text : List Char) : ℕ → Char := fun x =>
  if a≤x∧x<a+text.length then text.getD (x-a) '\x00' else mem x

/-- What `newpart` has built, and where the line goes on. -/
structure Built where
  rest : List Char
  /-- The bytes that are needed. -/
  needed : ℕ
  /-- The partitions entered so far, `num_parts` in the end. -/
  parts : List MtdPartition
  mem : ℕ → Char
  /-- The pieces of the memory that were written to, each with its place and length. -/
  writes : List (ℕ×ℕ)
  /-- `extra_mem` -/
  extraMem : ℕ

/-- The memory is allocated. -/
def allocParts (kzalloc : Bool) (numParts extraMemSize : ℕ) (s : List Char) : Option Built :=
  if kzalloc then
    some {
      rest := s
      needed := numParts*PARTITION_SIZE+extraMemSize
      parts := []
      mem := fun _ => '\x00'
      writes := []
      extraMem := numParts*PARTITION_SIZE }
  else none

/-- A partition is entered, and its name. -/
def enterPart (thisPart size offset maskFlags : ℕ) (name : Option (List Char)) (b : Built) :
    Built :=
  let text := name.getD (generated thisPart)++['\x00']
  {b with
    parts := ⟨b.extraMem,size,offset,maskFlags⟩::b.parts
    mem := store b.mem b.extraMem text
    writes := (b.extraMem,text.length)::(thisPart*PARTITION_SIZE,PARTITION_SIZE)::b.writes
    extraMem := b.extraMem+nameLen name+1 }

/-- `newpart`. The fuel is more than the length of the line. -/
def newpart (kzalloc : Bool) : ℕ → List Char → ℕ → ℕ → Option Built
  | 0,_,_,_ => none
  | fuel+1,s,thisPart,extraMemSize =>
    match readSize s with
    | none => none
    | some (size,s) =>
      let offset := readOffset s
      match readName offset.2 with
      | none => none
      | some (name,s) =>
        let extraMemSize := extraMemSize+nameLen name+1
        let ro := readWriteable s
        let lk := readLock ro.2
        let built := match lk.2 with
          | ','::s =>
            if size=SIZE_REMAINING then none
            else newpart kzalloc fuel s (thisPart+1) extraMemSize
          | s => allocParts kzalloc (thisPart+1) extraMemSize s
        built.map (enterPart thisPart size offset.1 (ro.1 ||| lk.1) name)

/-! ## Devices -/

/-- `struct cmdline_mtd_partition`, in the memory of its partitions. -/
structure CmdlineMtdPartition where
  /-- Where the name of the device is. -/
  mtdId : ℕ
  /-- The first `num_parts` of the partitions. -/
  parts : List MtdPartition
  mem : ℕ → Char
  /-- The bytes that are needed. -/
  needed : ℕ
  writes : List (ℕ×ℕ)

/-- `alloc_size`, as `kzalloc` gets it. -/
def CmdlineMtdPartition.allocSize (part : CmdlineMtdPartition) : ℕ := part.needed%2^32

/-- The description of a device and its name come after the names of its partitions. -/
def enterDevice (id : List Char) (b : Built) : CmdlineMtdPartition :=
  let thisMtd := (b.extraMem+(POINTER_SIZE-1))/POINTER_SIZE*POINTER_SIZE
  let mtdId := thisMtd+DEVICE_SIZE
  { mtdId := mtdId
    parts := b.parts
    mem := store b.mem mtdId (id++['\x00'])
    needed := b.needed
    writes := (mtdId,id.length+1)::(thisMtd,DEVICE_SIZE)::b.writes }

/-- The loop of `mtdpart_setup_real`. A new device is linked before the others. -/
def setupLoop (kzalloc : ℕ → Bool) : ℕ → List Char → List CmdlineMtdPartition →
    Bool×List CmdlineMtdPartition
  | 0,_,partitions => (false,partitions)
  | fuel+1,s,partitions =>
    match s.dropWhile (·≠ ':') with
    | [] => (false,partitions)
    | _::defs =>
      let id := s.takeWhile (·≠ ':')
      match newpart (kzalloc partitions.length) (defs.length+1) defs 0
          (id.length+1+DEVICE_SIZE+(POINTER_SIZE-1)) with
      | none => (false,partitions)
      | some b =>
        let partitions := enterDevice id b::partitions
        match b.rest with
        | [] => (true,partitions)
        | ';'::s => setupLoop kzalloc fuel s partitions
        | _ => (false,partitions)

/-- What is true of each device that is built is true of all that are linked. -/
theorem setupLoop_forall {P : CmdlineMtdPartition → Prop} {kzalloc : ℕ → Bool} {fuel : ℕ}
    {s : List Char} {partitions : List CmdlineMtdPartition}
    (built : ∀ k fuel s id b,newpart k fuel s 0 (id.length+1+DEVICE_SIZE+(POINTER_SIZE-1))=some b →
      P (enterDevice id b)) (h : ∀ d∈partitions,P d) :
    ∀ d∈(setupLoop kzalloc fuel s partitions).2,P d := by
  induction fuel generalizing s partitions with
  | zero => exact h
  | succ fuel ih =>
    rw [setupLoop]
    split
    · exact h
    dsimp only
    split
    · exact h
    next b hb =>
    have hcons : ∀ d∈enterDevice (s.takeWhile (·≠ ':')) b::partitions,P d := by
      intro d hd
      rcases List.mem_cons.mp hd with rfl|hd
      · exact built _ _ _ _ _ hb
      · exact h d hd
    split
    · exact hcons
    · exact ih hcons
    · exact hcons

/-- `mtdpart_setup_real`, with what each allocation returns. -/
def mtdpartSetupReal (kzalloc : ℕ → Bool) : Option (List Char) → Bool×List CmdlineMtdPartition
  | none => (true,[])
  | some s => setupLoop kzalloc (s.length+1) s []

/-! ## Partitions of a device -/

/-- The loop of `parse_cmdline_partitions`. A partition that exceeds the flash is
truncated, and is the first that is not counted any more. -/
def fixParts (masterSize : ℕ) : ℕ → List MtdPartition → List MtdPartition
  | _,[] => []
  | offset,p::parts =>
    let p := if p.offset=OFFSET_CONTINUOUS then {p with offset := offset} else p
    let offset := p.offset%2^32
    let p := if p.size=SIZE_REMAINING then {p with size := (masterSize+2^64-offset)%2^64} else p
    if masterSize<(offset+p.size)%2^64 then []
    else p::fixParts masterSize ((offset+p.size)%2^32) parts

/-- `strcmp(part->mtd_id, mtd_id)` is zero. -/
def CmdlineMtdPartition.named (part : CmdlineMtdPartition) (mtdId : List Char) : Bool :=
  (mtdId++['\x00']).zipIdx.all fun x => part.mem (part.mtdId+x.2)=x.1

/-- The device is meant. -/
def CmdlineMtdPartition.isFor (part : CmdlineMtdPartition) (mtdId : Option (List Char)) : Bool :=
  mtdId.all part.named

/-- What is asked: the name and the size of the flash, and whether there is memory. -/
structure Master where
  name : Option (List Char)
  size : ℕ
  kmemdup : Bool

/-- What `parse_cmdline_partitions` returns, and the list it returns. -/
abbrev Answer := ℤ×Option (List MtdPartition)

/-- The partitions are returned, and how many they are. -/
def gives (parts : List MtdPartition) : Answer := (parts.length,some parts)

/-- The partitions are copied for the driver. -/
def Master.copy (master : Master) (parts : List MtdPartition) : Answer :=
  if master.kmemdup then gives parts else (-ENOMEM,none)

/-- The partitions of the first device that is meant, which are changed in place. -/
def findPartitions (master : Master) : List CmdlineMtdPartition → Answer×List CmdlineMtdPartition
  | [] => ((0,none),[])
  | part::partitions =>
    if part.isFor master.name then
      let parts := fixParts master.size 0 part.parts
      (master.copy parts,{part with parts := parts}::partitions)
    else
      let r := findPartitions master partitions
      (r.1,part::r.2)

/-- The variables of the parser. -/
structure State where
  cmdline : Option (List Char)
  cmdlineParsed : Bool
  partitions : List CmdlineMtdPartition

/-- `parse_cmdline_partitions` -/
def parseCmdlinePartitions (kzalloc : ℕ → Bool) (master : Master) (st : State) : Answer×State :=
  let partitions :=
    if st.cmdlineParsed then st.partitions else (mtdpartSetupReal kzalloc st.cmdline).2
  let r := findPartitions master partitions
  (r.1,{st with cmdlineParsed := true, partitions := r.2})

/-- Calls one after the other, with what they return. -/
def parseAll (kzalloc : ℕ → Bool) : List Master → State → List Answer
  | [],_ => []
  | master::calls,st =>
    let r := parseCmdlinePartitions kzalloc master st
    r.1::parseAll kzalloc calls r.2

/-- The variables after `mtdpart_setup`. -/
def State.start (cmdline : Option (List Char)) : State := ⟨cmdline,false,[]⟩

end ArdroneKernel.CmdlineParts
