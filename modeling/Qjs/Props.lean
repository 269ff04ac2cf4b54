import Qjs.Atoms
import Qjs.Lib.Linked

/-!
# Property tables

The properties of an object are one array of words: their number, the hash mask, the heads of the
hash chains, then slots of three words with the key, the value, and the next slot of the chain
together with the kind. Slots are used from the first free one on; where that is stands in the
last slot as long as the last slot is not in use. Deleted slots stay as holes until the table is
compacted.

Collections may run inside every allocation. They move blocks, so they rename the words that are
pointers and hash the table again.
-/

namespace Qjs

/-- `JSValueArray`. -/
structure ValueArray where
  size : ℕ
  arr : ℕ → ℕ

def ValueArray.set (t : ValueArray) (i w : ℕ) : ValueArray :=
  { t with arr := Function.update t.arr i w }

/-- `memmove` of `n` words. -/
def ValueArray.move (t : ValueArray) (dst src n : ℕ) : ValueArray :=
  { t with arr := fun i => if dst ≤ i ∧ i < dst + n then t.arr (i - dst + src) else t.arr i }

/-! ### Words -/

def uninitializedWord : ℕ := jsTagUninitialized

def undefinedWord : ℕ := jsTagUndefined

/-- `JS_NewShortInt` of a number that is not negative. -/
def shortIntWord (n : ℕ) : ℕ := 2 * n

/-- `JS_VALUE_GET_INT` of a number that is not negative. -/
def wordGetInt (w : ℕ) : ℕ := w % 2 ^ 32 / 2

inductive PropType
  | normal
  | getset
  | varref
  | special
  deriving DecidableEq, Repr

def PropType.code : PropType → ℕ
  | normal => 0
  | getset => 1
  | varref => 2
  | special => 3

/-- The fields of the third word of a slot: 30 bits and 2 bits. -/
def hashNext (w : ℕ) : ℕ := w % 2 ^ 30

def propType (w : ℕ) : PropType :=
  match w / 2 ^ 30 % 4 with
  | 0 => .normal
  | 1 => .getset
  | 2 => .varref
  | _ => .special

def setHashNext (w n : ℕ) : ℕ := w / 2 ^ 30 * 2 ^ 30 + n % 2 ^ 30

def setPropType (w : ℕ) (t : PropType) : ℕ := w / 2 ^ 32 * 2 ^ 32 + t.code * 2 ^ 30 + w % 2 ^ 30

variable (a : Arch)

/-- `hash_prop`, a `uint32_t`. -/
def hashProp (prop : ℕ) : ℕ := ((prop / a.jsw) ^^^ (prop % a.jsw)) % 2 ^ 32

def ValueArray.propCount (t : ValueArray) : ℕ := wordGetInt (t.arr 0)

def ValueArray.hashMask (t : ValueArray) : ℕ := wordGetInt (t.arr 1)

/-- Where the slots start. -/
def ValueArray.base (t : ValueArray) : ℕ := 2 + t.hashMask + 1

/-- The word in which the chain of `prop` starts. -/
def hashSlot (t : ValueArray) (prop : ℕ) : ℕ := 2 + (hashProp a prop &&& t.hashMask)

/-! ### Lookup -/

/-- A chain link: zero, or twice an index. -/
def linkOf (w : ℕ) : Option ℕ := if w = 0 then none else some (w / 2)

/-- The slot after `pos` on its chain. -/
def nextSlot (t : ValueArray) (pos : ℕ) : Option ℕ := linkOf (hashNext (t.arr (pos + 2)))

/-- `find_own_property`. -/
def findOwnProperty (t : ValueArray) (prop : ℕ) : Option ℕ :=
  (Linked.search (nextSlot t) (fun pos => t.arr pos == prop) (t.size + 1) none
    (linkOf (t.arr (hashSlot a t prop) % 2 ^ 32))).map Prod.snd

/-! ### Allocation -/

/-- What happens inside an allocation: how each collection renames pointers, and whether memory is
found. -/
structure PropAlloc where
  relocs : List (ℕ → ℕ)
  ok : Bool

def relocWord (reloc : ℕ → ℕ) (w : ℕ) : ℕ := if w % a.jsw = jsTagPtr then reloc w else w

/-- `clz32`-based: the number of bits of `prop_count - 1`, less one. -/
def getPropHashSizeLog2 (propCount : ℕ) : ℕ :=
  if propCount ≤ 1 then 0 else Nat.log2 (propCount - 1)

/-- `js_alloc_props`, for `n ≥ 1`. -/
def jsAllocProps (n : ℕ) : ValueArray :=
  let hashMask := 2 ^ getPropHashSizeLog2 n - 1
  let firstFree := 2 + hashMask + 1
  let size := firstFree + 3 * n
  { size
    arr := fun i =>
      if i = 0 then shortIntWord 0
      else if i = 1 then shortIntWord hashMask
      else if i < firstFree then 0
      else if (i - firstFree) % 3 = 0 then uninitializedWord
      else if i = size - 1 then setHashNext undefinedWord (2 * firstFree)
      else undefinedWord }

/-- The loop of `js_rehash_props` over the slots from `i` on, `j` of `count` being linked. -/
def rehashLoop (count hashMask : ℕ) : ℕ → ℕ → ℕ → ValueArray → ValueArray
  | 0, _, _, t => t
  | fuel + 1, i, j, t =>
    if j < count then
      let idx := 2 + (hashMask + 1) + 3 * i
      if t.arr idx ≠ uninitializedWord then
        let h := 2 + (hashProp a (t.arr idx) &&& hashMask)
        let t := t.set (idx + 2) (setHashNext (t.arr (idx + 2)) (t.arr h))
        rehashLoop count hashMask fuel (i + 1) (j + 1) (t.set h (shortIntWord idx))
      else rehashLoop count hashMask fuel (i + 1) j t
    else t

/-- `js_rehash_props` of a table that is not in ROM. -/
def jsRehashProps (t : ValueArray) (gcRehash : Bool) : ValueArray :=
  let hashMask := t.hashMask
  if hashMask = 0 ∧ gcRehash then t
  else
    let t' := { t with arr := fun i => if 2 ≤ i ∧ i ≤ 2 + hashMask then shortIntWord 0 else t.arr i }
    rehashLoop a t.propCount hashMask t.size 0 0 t'

/-- `p->props`: `ctx->empty_props`, a table in ROM or one in the heap. -/
inductive Props
  | empty
  | rom (t : ValueArray)
  | ram (t : ValueArray)

def emptyProps : ValueArray := ⟨3, fun _ => shortIntWord 0⟩

def Props.table : Props → ValueArray
  | empty => emptyProps
  | rom t => t
  | ram t => t

/-- What a collection does to the table. -/
def Props.gc (reloc : ℕ → ℕ) : Props → Props
  | empty => empty
  | rom t => rom t
  | ram t => ram (jsRehashProps a { t with arr := fun i => relocWord a reloc (t.arr i) } true)

def Props.gcs (relocs : List (ℕ → ℕ)) (p : Props) : Props := relocs.foldl (fun p r => p.gc a r) p

def relocWords (relocs : List (ℕ → ℕ)) (w : ℕ) : ℕ := relocs.foldl (fun w r => relocWord a r w) w

/-! ### Compaction -/

/-- The loop of `js_compact_props`: the slots in use from `i` on move down to `j`. -/
def compactLoop (count hashMask newHashMask : ℕ) : ℕ → ℕ → ℕ → ValueArray → ValueArray
  | 0, _, _, t => t
  | fuel + 1, i, j, t =>
    if j < count then
      let src := 2 + (hashMask + 1) + 3 * i
      if t.arr src ≠ uninitializedWord then
        let t := t.move (2 + (newHashMask + 1) + 3 * j) src 3
        compactLoop count hashMask newHashMask fuel (i + 1) (j + 1) t
      else compactLoop count hashMask newHashMask fuel (i + 1) j t
    else t

/-- `js_compact_props` of a table in the heap. -/
def jsCompactProps (t : ValueArray) : Props :=
  let count := t.propCount
  if count = 0 then .empty
  else
    let hashMask := t.hashMask
    let newHashMask := min hashMask (2 ^ getPropHashSizeLog2 count - 1)
    let newSize := 2 + newHashMask + 1 + 3 * count
    if newSize ≥ t.size then .ram t
    else
      let t := t.set 1 (shortIntWord newHashMask)
      let t := compactLoop count hashMask newHashMask t.size 0 0 t
      .ram (jsRehashProps a { t with size := newSize } false)

/-! ### Creation -/

def getFirstFree (t : ValueArray) : ℕ :=
  if t.arr (t.size - 3) = uninitializedWord then hashNext (t.arr (t.size - 1)) / 2 else t.size

/-- The end of `js_create_property`: the slot at `firstFree` is filled and put on its chain. -/
def linkProperty (t : ValueArray) (prop firstFree propCount hashMask : ℕ) : ValueArray :=
  let h := 2 + (hashProp a prop &&& hashMask)
  let t := t.set firstFree prop
  let t := t.set (firstFree + 1) undefinedWord
  let w := setPropType (t.arr (firstFree + 2)) .normal
  let t := t.set (firstFree + 2) (setHashNext w (t.arr h))
  let t := t.set h (shortIntWord firstFree)
  let t := t.set 0 (shortIntWord (propCount + 1))
  if firstFree + 3 < t.size then
    t.set (t.size - 1) (setHashNext (t.arr (t.size - 1)) (2 * (firstFree + 3)))
  else t

/-- The larger array of `js_create_property`, with the slots and chains in place, and where its
first free slot is. -/
def growProps (t : ValueArray) (newSize hashMask newHashMask : ℕ) : ValueArray × ℕ :=
  let firstFree := t.size
  let t := { size := newSize, arr := fun i => if i < t.size then t.arr i else undefinedWord }
  if newHashMask ≠ hashMask then
    let t := t.move (2 + (newHashMask + 1)) (2 + (hashMask + 1)) (firstFree - (2 + hashMask + 1))
    let t := t.set 1 (shortIntWord newHashMask)
    (jsRehashProps a t false, firstFree + (newHashMask - hashMask))
  else (t, firstFree)

/-- The number of hash chains less one that `js_create_property` wants when it makes room. -/
def grownMask (t : ValueArray) : ℕ :=
  if t.propCount + 1 > 2 * (t.hashMask + 1) then 2 * (t.hashMask + 1) - 1 else t.hashMask

/-- The size of the larger array. -/
def grownSize (t : ValueArray) : ℕ :=
  resizedSize t.size (t.size + 3 + (grownMask t - t.hashMask)) (2 + grownMask t + 1)

/-- The collections of `js_create_property`: there are none if a slot is free. -/
def createRelocs (p : Props) (al : PropAlloc) : List (ℕ → ℕ) :=
  if p.table.arr (p.table.size - 3) ≠ uninitializedWord then al.relocs else []

/-- `js_create_property`: the table, and the slot unless there was an exception. -/
def jsCreateProperty (p : Props) (prop : ℕ) (al : PropAlloc) : Props × Option ℕ :=
  let t := p.table
  let propCount := t.propCount
  let hashMask := t.hashMask
  if t.arr (t.size - 3) ≠ uninitializedWord then
    match p with
    | .empty =>
      if al.ok then
        let t := jsAllocProps 1
        let t := t.set (t.size - 3) uninitializedWord
        (.ram (linkProperty a t (relocWords a al.relocs prop) 3 propCount hashMask), some 3)
      else (.empty, none)
    | _ =>
      let newHashMask := grownMask t
      let newSize := grownSize t
      let p := p.gcs a al.relocs
      if newSize ≤ jsValueArraySizeMax ∧ al.ok then
        let (t, firstFree) := growProps a p.table newSize hashMask newHashMask
        let t := t.set (t.size - 3) uninitializedWord
        (.ram (linkProperty a t (relocWords a al.relocs prop) firstFree propCount newHashMask),
          some firstFree)
      else (p, none)
  else
    let firstFree := hashNext (t.arr (t.size - 1)) / 2
    (.ram (linkProperty a t prop firstFree propCount hashMask), some firstFree)

/-! ### Tables in ROM -/

/-- The loop of `js_update_props` over the slots from `i` on. -/
def convertLoop (getSpecialProp : ℕ → ℕ) (hashMask : ℕ) : ℕ → ℕ → ValueArray → ValueArray
  | 0, _, t => t
  | n + 1, i, t =>
    let idx := 2 + (hashMask + 1) + 3 * i
    let t :=
      if propType (t.arr (idx + 2)) = .special then
        (t.set (idx + 1) (getSpecialProp (t.arr (idx + 1)))).set (idx + 2)
          (setPropType (t.arr (idx + 2)) .normal)
      else t
    convertLoop getSpecialProp hashMask n (i + 1) t

/-- `js_update_props`, and whether it succeeded. -/
def jsUpdateProps (getSpecialProp : ℕ → ℕ) (p : Props) (al : PropAlloc) : Props × Bool :=
  match p with
  | .rom t =>
    if al.ok then (.ram (convertLoop getSpecialProp t.hashMask t.propCount 0 t), true)
    else (.rom t, false)
  | p => (p, true)

/-! ### Definition -/

/-- The collections of `js_update_props`. -/
def updateRelocs (p : Props) (al : PropAlloc) : List (ℕ → ℕ) :=
  match p with
  | .rom _ => al.relocs
  | _ => []

/-- The arguments of `JS_DefinePropertyInternal`, and what it meets: `getSpecialProp` reads the
prototypes and constructors of the classes, and `block` is the new array of a getter and a setter,
or the new variable of the global object. -/
structure DefineArgs where
  getSpecialProp : ℕ → ℕ
  prop : ℕ
  val : ℕ
  lookup : Bool
  hasValue : Bool
  hasGet : Bool
  hasSet : Bool
  isGlobal : Bool
  update : PropAlloc
  alloc : PropAlloc
  create : PropAlloc
  block : ℕ

/-- What is left of `JS_DefinePropertyInternal` when the property is there. Stores into the array of
a getter and a setter or into a variable do not change the table. -/
def overwriteProperty (isRomPtr : ℕ → Bool) (p : Props) (pos : ℕ) (d : DefineArgs) (prop val : ℕ) :
    Props × Bool :=
  let t := p.table
  if d.hasValue then
    match propType (t.arr (pos + 2)) with
    | .normal => (.ram (t.set (pos + 1) val), true)
    | .varref => (p, true)
    | _ => (p, false)
  else if d.hasGet ∨ d.hasSet then
    if propType (t.arr (pos + 2)) ≠ .getset then (p, false)
    else if isRomPtr (t.arr (pos + 1)) then
      -- the pair is moved to RAM
      let p := p.gcs a d.alloc.relocs
      if d.alloc.ok then
        match findOwnProperty a p.table (relocWords a d.alloc.relocs prop) with
        | some pos => (.ram (p.table.set (pos + 1) d.block), true)
        | none => (p, false)
      else (p, false)
    else (p, true)
  else (p, true)

/-- The kind and the value of a new property, unless the block it needs cannot be allocated. -/
def newPropertyValue (d : DefineArgs) (val : ℕ) : Option (PropType × ℕ) :=
  if d.hasGet ∨ d.hasSet then if d.alloc.ok then some (.getset, d.block) else none
  else if d.isGlobal then if d.alloc.ok then some (.varref, d.block) else none
  else some (.normal, val)

/-- The collections of the allocation of that block. -/
def blockRelocs (d : DefineArgs) : List (ℕ → ℕ) :=
  if d.hasGet ∨ d.hasSet ∨ d.isGlobal then d.alloc.relocs else []

/-- What is left of `JS_DefinePropertyInternal` when the property is to be created. -/
def addProperty (p : Props) (d : DefineArgs) (prop val : ℕ) : Props × Bool :=
  let p := p.gcs a (blockRelocs d)
  let prop := relocWords a (blockRelocs d) prop
  match newPropertyValue d val with
  | none => (p, false)
  | some (type, val) =>
    let val := relocWords a (createRelocs p d.create) val
    match jsCreateProperty a p prop d.create with
    | (p, none) => (p, false)
    | (p, some pos) =>
      let t := p.table
      let t := t.set (pos + 2) (setPropType (t.arr (pos + 2)) type)
      (.ram (t.set (pos + 1) val), true)

variable (isRomPtr : ℕ → Bool)

/-- `JS_DefinePropertyInternal`, and whether it succeeded. -/
def jsDefinePropertyInternal (p : Props) (d : DefineArgs) : Props × Bool :=
  let prop := relocWords a (updateRelocs p d.update) d.prop
  let val := relocWords a (updateRelocs p d.update) d.val
  let (p, ok) := jsUpdateProps d.getSpecialProp p d.update
  if ok then
    match if d.lookup then findOwnProperty a p.table prop else none with
    | some pos => overwriteProperty a isRomPtr p pos d prop val
    | none => addProperty a p d prop val
  else (p, false)

/-- The own properties in `JS_SetPropertyInternal`, from `redo` on, and whether it succeeded. A
property that is not there is left to the prototypes or to `JS_DefinePropertyInternal`. -/
def setOwnProperty (getSpecialProp : ℕ → ℕ) (al : PropAlloc) :
    ℕ → Props → ℕ → ℕ → Props × Bool
  | 0, p, _, _ => (p, false)
  | fuel + 1, p, prop, val =>
    let convertToRam :=
      match jsUpdateProps getSpecialProp p al with
      | (p', true) => setOwnProperty getSpecialProp al fuel p' (relocWords a (updateRelocs p al) prop)
          (relocWords a (updateRelocs p al) val)
      | (p', false) => (p', false)
    match findOwnProperty a p.table prop with
    | none => (p, true)
    | some pos =>
      match propType (p.table.arr (pos + 2)), p with
      | .normal, .rom _ => convertToRam
      | .normal, p => (.ram (p.table.set (pos + 1) val), true)
      | .special, _ => convertToRam
      | _, p => (p, true)

/-- The second pass finds a table in RAM. -/
def jsSetOwnProperty (getSpecialProp : ℕ → ℕ) (p : Props) (prop val : ℕ) (al : PropAlloc) :
    Props × Bool := setOwnProperty a getSpecialProp al 2 p prop val

/-! ### Deletion -/

/-- The links as `JS_DeleteProperty` reads them: indices that are not doubled. -/
def indexOf (i : ℕ) : Option ℕ := if i = 0 then none else some i

def nextIndex (t : ValueArray) (pos : ℕ) : Option ℕ := indexOf (hashNext (t.arr (pos + 2)) / 2)

/-- `first_free` moves down over the holes before it. -/
def trimFirstFree (t : ValueArray) (base : ℕ) : ℕ → ℕ → ℕ
  | 0, firstFree => firstFree
  | fuel + 1, firstFree =>
    if firstFree > base then
      if t.arr (firstFree - 3) ≠ uninitializedWord then firstFree
      else trimFirstFree t base fuel (firstFree - 3)
    else firstFree

/-- The slot at `pos` is taken off its chain, `last` being the slot before it. -/
def unlinkProperty (t : ValueArray) (h pos : ℕ) (last : Option ℕ) : ValueArray :=
  match last with
  | some lpos => t.set (lpos + 2) (setHashNext (t.arr (lpos + 2)) (hashNext (t.arr (pos + 2))))
  | none => t.set h (hashNext (t.arr (pos + 2)))

/-- The slot at `pos` becomes a hole. -/
def clearProperty (t : ValueArray) (pos : ℕ) : ValueArray :=
  let firstFree := getFirstFree t
  let t := t.set 0 (shortIntWord (t.propCount - 1))
  let t := t.set (pos + 2) (setPropType (t.arr (pos + 2)) .normal)
  let t := t.set pos uninitializedWord
  let t := t.set (pos + 1) undefinedWord
  let firstFree := trimFirstFree t (2 + t.hashMask + 1) t.size firstFree
  if firstFree < t.size then
    t.set (t.size - 1) (setHashNext (t.arr (t.size - 1)) (2 * firstFree))
  else t

/-- `JS_DeleteProperty` of a property key, and whether it succeeded. -/
def jsDeleteProperty (getSpecialProp : ℕ → ℕ) (p : Props) (prop : ℕ) (al : PropAlloc) :
    Props × Bool :=
  let t := p.table
  let h := hashSlot a t prop
  match Linked.search (nextIndex t) (fun pos => t.arr pos == prop) (t.size + 1) none
      (indexOf (wordGetInt (t.arr h))) with
  | none => (p, true)
  | some (last, pos) =>
    match jsUpdateProps getSpecialProp p al with
    | (p, false) => (p, false)
    | (p, true) =>
      let t := unlinkProperty p.table h pos last
      let count := t.propCount
      let t := clearProperty t pos
      if 2 + t.hashMask + 1 + 3 * count < t.size / 2 then (jsCompactProps a t, true)
      else (.ram t, true)

/-! ### Runs -/

inductive PropEvent
  | define (d : DefineArgs)
  | set (getSpecialProp : ℕ → ℕ) (prop val : ℕ) (al : PropAlloc)
  | delete (getSpecialProp : ℕ → ℕ) (prop : ℕ) (al : PropAlloc)
  | gc (reloc : ℕ → ℕ)

/-- One event, and whether it succeeded. -/
def propStep (p : Props) : PropEvent → Props × Bool
  | .define d => jsDefinePropertyInternal a isRomPtr p d
  | .set getSpecialProp prop val al => jsSetOwnProperty a getSpecialProp p prop val al
  | .delete getSpecialProp prop al => jsDeleteProperty a getSpecialProp p prop al
  | .gc reloc => (p.gc a reloc, true)

def propRun (p : Props) : List PropEvent → Props
  | [] => p
  | e :: es => propRun (propStep a isRomPtr p e).1 es

end Qjs
