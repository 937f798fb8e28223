import BlockchainPG.Lib.Words

/-! Heap tuples, `heaptuple.c`. -/

namespace BlockchainPG.Access.Tuple

open Lib Function

inductive AttAlign where
  | char
  | short
  | int
  | double
deriving DecidableEq

inductive AttStorage where
  | plain
  | external
  | extended
  | main
deriving DecidableEq

def AttAlign.size : AttAlign → Nat
  | .char => 1
  | .short => 2
  | .int => 4
  | .double => 8

/-- `Form_pg_attribute` but for `attcacheoff`, with what `TypeCreate` requires of a type. -/
structure Attribute where
  attlen : Int
  attbyval : Bool
  attalign : AttAlign
  attstorage : AttStorage
  attndims : Nat
  attisdropped : Bool
  sizes : 0 < attlen ∨ attlen = -1 ∨ attlen = -2
  byval : attbyval = true → (attlen = 1 ∧ attalign = .char) ∨ (attlen = 2 ∧ attalign = .short) ∨
    (attlen = 4 ∧ attalign = .int) ∨ (attlen = 8 ∧ attalign = .double)
  varlena : attlen = -1 → attalign = .int ∨ attalign = .double
  cstring : attlen = -2 → attalign = .char

def attAlignNominal (off : Nat) (align : AttAlign) : Nat := alignUp align.size off

section Varlena

/-- What a pointer points to: the bytes from there on. -/
abbrev Memory := List UInt8

/-- `va_header` of a `varattrib_1b` -/
def vaHeader (memory : Memory) : UInt8 := memory.headD 0

def varattIs4BU (memory : Memory) : Bool := vaHeader memory &&& 0x03 == 0

def varattIsShort (memory : Memory) : Bool := vaHeader memory &&& 0x01 == 0x01

def varattIsExternal (memory : Memory) : Bool := vaHeader memory == 0x01

def varattIsExtended (memory : Memory) : Bool := ! varattIs4BU memory

def varattNotPadByte (memory : Memory) : Bool := vaHeader memory != 0

def varsize (memory : Memory) : Nat := (wordOf UInt8.toNat (memory.take 4) >>> 2) &&& 0x3FFFFFFF

def varsizeShort (memory : Memory) : Nat := ((vaHeader memory >>> 1) &&& 0x7F).toNat

def varsizeExternal (memory : Memory) : Nat := (memory.getD 1 0).toNat

def varsizeAny (memory : Memory) : Nat :=
  if varattIsExternal memory then varsizeExternal memory
  else if varattIsShort memory then varsizeShort memory
  else varsize memory

def varhdrsz : Nat := 4

def varattConvertedShortSize (memory : Memory) : Nat := varsize memory - varhdrsz + 1

def varattCanMakeShort (memory : Memory) : Bool :=
  varattIs4BU memory && varattConvertedShortSize memory ≤ 0x7F

/-- The header that `SET_VARSIZE_SHORT` writes. -/
def setVarsizeShort (size : Nat) : UInt8 := (UInt8.ofNat size <<< 1) ||| 0x01

def strlen (memory : Memory) : Nat := (memory.takeWhile (· != 0)).length

end Varlena

/-- A `Datum`, which the attribute says how to read. -/
inductive Datum where
  | value (word : Nat)
  | pointer (memory : Memory)

def Datum.word : Datum → Nat
  | .value word => word
  | .pointer _ => 0

/-- `DatumGetPointer` -/
def Datum.memory : Datum → Memory
  | .value _ => []
  | .pointer memory => memory

def fetchatt (att : Attribute) (memory : Memory) : Datum :=
  if att.attbyval then .value (wordOf UInt8.toNat (memory.take att.attlen.toNat)) else .pointer memory

def attAlignDatum (off : Nat) (att : Attribute) (memory : Memory) : Nat :=
  if att.attlen = -1 ∧ varattIsShort memory then off else attAlignNominal off att.attalign

def attAlignPointer (off : Nat) (att : Attribute) (memory : Memory) : Nat :=
  if att.attlen = -1 ∧ varattNotPadByte memory then off else attAlignNominal off att.attalign

def attAddlengthPointer (off : Nat) (att : Attribute) (memory : Memory) : Nat :=
  if att.attlen > 0 then off + att.attlen.toNat
  else if att.attlen = -1 then off + varsizeAny memory
  else off + (strlen memory + 1)

def attIsPackable (att : Attribute) : Bool := att.attlen = -1 ∧ att.attstorage ≠ .plain

section Form

/-- The loop of `heap_compute_data_size`; a null is no datum. -/
def computeDataSize : List (Attribute × Option Datum) → Nat → Nat
  | [], dataLength => dataLength
  | (_, none) :: rest, dataLength => computeDataSize rest dataLength
  | (att, some val) :: rest, dataLength =>
    if attIsPackable att ∧ varattCanMakeShort val.memory then
      computeDataSize rest (dataLength + varattConvertedShortSize val.memory)
    else
      computeDataSize rest
        (attAddlengthPointer (attAlignDatum dataLength att val.memory) att val.memory)

def heapComputeDataSize (atts : List Attribute) (values : List (Option Datum)) : Nat :=
  computeDataSize (atts.zip values) 0

/-- The data area as far as it has been written, the bits of `t_infomask` that tell of
its contents, and the null bitmap with the mask of its last bit. -/
structure Filled where
  data : List UInt8
  hasNull : Bool
  hasVarWidth : Bool
  hasExternal : Bool
  bits : List (BitVec 8)
  bitmask : BitVec 8

def highbit : BitVec 8 := 0x80

/-- The data pointer is aligned; `start` is the address of the data area, which is zero up
to its end. -/
def Filled.align (filled : Filled) (start : Nat) (align : AttAlign) : Filled :=
  { filled with data := filled.data ++
      List.replicate (attAlignNominal (start + filled.data.length) align - (start + filled.data.length)) 0 }

def Filled.copy (filled : Filled) (bytes : List UInt8) : Filled := { filled with data := filled.data ++ bytes }

/-- One attribute in `heap_fill_tuple`. -/
def fillDatum (start : Nat) (att : Attribute) (datum : Datum) (filled : Filled) : Filled :=
  if att.attbyval then
    (filled.align start att.attalign).copy (storeWord UInt8.ofNat att.attlen.toNat datum.word)
  else if att.attlen = -1 then
    let val := datum.memory
    let filled := { filled with hasVarWidth := true }
    if varattIsExternal val then { filled.copy (val.take (varsizeExternal val)) with hasExternal := true }
    else if varattIsShort val then filled.copy (val.take (varsizeShort val))
    else if att.attstorage ≠ .plain ∧ varattCanMakeShort val then
      let dataLength := varattConvertedShortSize val
      filled.copy (setVarsizeShort dataLength :: (val.drop varhdrsz).take (dataLength - 1))
    else (filled.align start att.attalign).copy (val.take (varsize val))
  else if att.attlen = -2 then
    { filled.copy (datum.memory.take (strlen datum.memory + 1)) with hasVarWidth := true }
  else (filled.align start att.attalign).copy (datum.memory.take att.attlen.toNat)

def Filled.nextBit (filled : Filled) : Filled :=
  if filled.bitmask ≠ highbit then { filled with bitmask := filled.bitmask <<< 1 }
  else { filled with bits := filled.bits ++ [0], bitmask := 1 }

def Filled.setBit (filled : Filled) : Filled :=
  { filled with bits := filled.bits.modify (filled.bits.length - 1) (· ||| filled.bitmask) }

/-- The loop of `heap_fill_tuple`; `bit` says whether there is a null bitmap. Without one
there are no nulls. -/
def fillAtt (start : Nat) (bit : Bool) (filled : Filled) : Attribute × Option Datum → Filled
  | (_, none) => if bit then { filled.nextBit with hasNull := true } else filled
  | (att, some datum) => fillDatum start att datum (if bit then filled.nextBit.setBit else filled)

def heapFillTuple (start : Nat) (atts : List Attribute) (values : List (Option Datum)) (bit : Bool) : Filled :=
  (atts.zip values).foldl (fillAtt start bit) ⟨[], false, false, false, [], highbit⟩

/-- `HeapTuple`: the number of attributes, the bits of `t_infomask`, the null bitmap and the
data area. -/
structure HeapTuple where
  natts : Nat
  hasNulls : Bool
  hasVarWidth : Bool
  hasExternal : Bool
  bits : List (BitVec 8)
  data : List UInt8

def maxTupleAttributeNumber : Nat := 1664

inductive FormError where
  /-- number of columns (%d) exceeds limit (%d) -/
  | numberOfColumnsExceedsLimit (natts limit : Nat)

/-- The values after the first loop of `heap_form_tuple`, where `flatten` is
`toast_flatten_tuple_attribute`. -/
def flattenValue (flatten : Attribute → Memory → Memory) (att : Attribute) (value : Option Datum) : Option Datum :=
  value.map fun datum =>
    if att.attlen = -1 ∧ att.attalign = .double ∧ att.attndims = 0 ∧ varattIsExtended datum.memory = false then
      .pointer (flatten att datum.memory)
    else datum

/-- `heap_form_tuple`: the tuple, whose header is at the address `8 * td`, and the array of
values as it is left. -/
def heapFormTuple (flatten : Attribute → Memory → Memory) (td : Nat) (tdhasoid : Bool) (atts : List Attribute)
    (values : List (Option Datum)) : Except FormError (HeapTuple × List (Option Datum)) :=
  if atts.length > maxTupleAttributeNumber then
    .error (.numberOfColumnsExceedsLimit atts.length maxTupleAttributeNumber)
  else
    let values := (atts.zip values).map fun (att, value) => flattenValue flatten att value
    let hasnull := values.any Option.isNone
    let hoff := alignUp 8 (23 + (if hasnull then (atts.length + 7) / 8 else 0) + if tdhasoid then 4 else 0)
    let filled := heapFillTuple (8 * td + hoff) atts values hasnull
    .ok ({ natts := atts.length, hasNulls := filled.hasNull, hasVarWidth := filled.hasVarWidth,
           hasExternal := filled.hasExternal, bits := filled.bits, data := filled.data }, values)

end Form

section Deform

def attIsnull (att : Nat) (bits : List (BitVec 8)) : Bool := (bits.getD (att / 8) 0) &&& (1#8 <<< (att % 8)) == 0

/-- `attcacheoff` of every attribute, where minus one is no offset. -/
abbrev Cache := Nat → Option Nat

/-- The variables with which the readers walk along the data area. -/
structure Walk where
  off : Nat
  slow : Bool
  cache : Cache

/-- The offset of an attribute that is not null, in `heap_deform_tuple`, `slot_deform_tuple`
and `nocachegetattr`, where `slow` is `!usecache`. -/
def Walk.locate (walk : Walk) (data : List UInt8) (att : Attribute) (attnum : Nat) : Walk :=
  let aligned := attAlignNominal walk.off att.attalign
  match walk.slow, walk.cache attnum with
  | false, some cached => { walk with off := cached }
  | slow, _ =>
    if att.attlen = -1 then
      if slow = false ∧ walk.off = aligned then
        { walk with cache := update walk.cache attnum (some walk.off) }
      else { walk with off := attAlignPointer walk.off att (data.drop walk.off), slow := true }
    else
      { walk with off := aligned, cache := if slow then walk.cache else update walk.cache attnum (some aligned) }

/-- The end of an attribute. -/
def Walk.pass (walk : Walk) (data : List UInt8) (att : Attribute) : Walk :=
  { walk with
    off := attAddlengthPointer walk.off att (data.drop walk.off)
    slow := walk.slow || att.attlen ≤ 0 }

def HeapTuple.isnull (tuple : HeapTuple) (attnum : Nat) : Bool := tuple.hasNulls && attIsnull attnum tuple.bits

/-- The loop of `heap_deform_tuple` and of `slot_deform_tuple` over attributes from a number on. -/
def deformLoop (tuple : HeapTuple) : List Attribute → Nat → Walk → List (Option Datum) × Walk
  | [], _, walk => ([], walk)
  | att :: atts, attnum, walk =>
    if tuple.isnull attnum then
      let (values, walk) := deformLoop tuple atts (attnum + 1) { walk with slow := true }
      (none :: values, walk)
    else
      let walk := walk.locate tuple.data att attnum
      let value := fetchatt att (tuple.data.drop walk.off)
      let (values, walk) := deformLoop tuple atts (attnum + 1) (walk.pass tuple.data att)
      (some value :: values, walk)

/-- `heap_deform_tuple`; attributes that the tuple does not have are null. -/
def heapDeformTuple (tuple : HeapTuple) (atts : List Attribute) (cache : Cache) : List (Option Datum) × Cache :=
  let (values, walk) := deformLoop tuple (atts.take tuple.natts) 0 ⟨0, false, cache⟩
  (values ++ List.replicate (atts.length - tuple.natts) none, walk.cache)

/-- The part of a `TupleTableSlot` that belongs to its physical tuple; the number of
values is `tts_nvalid`. -/
structure TupleTableSlot where
  tuple : HeapTuple
  values : List (Option Datum)
  off : Nat
  slow : Bool

def TupleTableSlot.store (tuple : HeapTuple) : TupleTableSlot := ⟨tuple, [], 0, false⟩

def slotDeformTuple (slot : TupleTableSlot) (atts : List Attribute) (natts : Nat) (cache : Cache) :
    TupleTableSlot × Cache :=
  let nvalid := slot.values.length
  let (values, walk) := deformLoop slot.tuple ((atts.take natts).drop nvalid) nvalid
    (if nvalid = 0 then ⟨0, false, cache⟩ else ⟨slot.off, slot.slow, cache⟩)
  ({ slot with values := slot.values ++ values, off := walk.off, slow := walk.slow }, walk.cache)

/-- `slot_getattr` of an attribute that is not a system attribute, counted from zero. -/
def slotGetattr (slot : TupleTableSlot) (atts : List Attribute) (attnum : Nat) (cache : Cache) :
    Option Datum × TupleTableSlot × Cache :=
  if attnum < slot.values.length then (slot.values.getD attnum none, slot, cache)
  else
    match atts[attnum]? with
    | none => (none, slot, cache)
    | some att =>
      if attnum ≥ slot.tuple.natts then (none, slot, cache)
      else if slot.tuple.isnull attnum then (none, slot, cache)
      else if att.attisdropped then (none, slot, cache)
      else
        let (slot, cache) := slotDeformTuple slot atts (attnum + 1) cache
        (slot.values.getD attnum none, slot, cache)

/-- The check of `nocachegetattr` for nulls in front of an attribute. -/
def nullBefore (bits : List (BitVec 8)) (attnum : Nat) : Bool :=
  let byte := attnum / 8
  let finalbit := attnum % 8
  ((~~~ bits.getD byte 0) &&& ((1#8 <<< finalbit) - 1) != 0) || (List.range byte).any fun i => bits.getD i 0 != 0xFF

/-- The loop of `nocachegetattr` that caches the offsets of all leading attributes of fixed
width from a number on. -/
def cacheFixed : List Attribute → Nat → Nat → Cache → Cache
  | [], _, _, cache => cache
  | att :: atts, j, off, cache =>
    if att.attlen ≤ 0 then cache
    else
      let off := attAlignNominal off att.attalign
      cacheFixed atts (j + 1) (off + att.attlen.toNat) (update cache j (some off))

def firstUncached (cache : Cache) : List Attribute → Nat → Nat
  | [], j => j
  | _ :: atts, j => if (cache j).any (0 < ·) then firstUncached cache atts (j + 1) else j

/-- The cache after the fast path of `nocachegetattr`. -/
def fastCache (atts : List Attribute) (cache : Cache) : Cache :=
  let cache := update cache 0 (some 0)
  let j := firstUncached cache (atts.drop 1) 1
  let off := (((cache (j - 1)).getD 0 : Int) + (atts[j - 1]?.map Attribute.attlen).getD 0).toNat
  cacheFixed (atts.drop j) j off cache

/-- The loop of the slow path of `nocachegetattr` up to an attribute. -/
def walkTo (tuple : HeapTuple) (target : Nat) : List Attribute → Nat → Walk → Walk
  | [], _, walk => walk
  | att :: atts, attnum, walk =>
    if tuple.isnull attnum then walkTo tuple target atts (attnum + 1) { walk with slow := true }
    else
      let walk := walk.locate tuple.data att attnum
      if attnum = target then walk else walkTo tuple target atts (attnum + 1) (walk.pass tuple.data att)

/-- `nocachegetattr` of an attribute counted from zero, which is not null. -/
def nocachegetattr (tuple : HeapTuple) (att : Attribute) (attnum : Nat) (atts : List Attribute) (cache : Cache) :
    Datum × Cache :=
  let slow := tuple.hasNulls && nullBefore tuple.bits attnum
  match slow, cache attnum with
  | false, some cached => (fetchatt att (tuple.data.drop cached), cache)
  | slow, _ =>
    let slow := slow || tuple.hasVarWidth && (atts.take (attnum + 1)).any fun att => att.attlen ≤ 0
    if slow then
      let walk := walkTo tuple attnum atts 0 ⟨0, false, cache⟩
      (fetchatt att (tuple.data.drop walk.off), walk.cache)
    else
      let cache := fastCache atts cache
      (fetchatt att (tuple.data.drop ((cache attnum).getD 0)), cache)

/-- `heap_getattr` of an attribute counted from zero, with `fastgetattr`. -/
def heapGetattr (tuple : HeapTuple) (atts : List Attribute) (attnum : Nat) (cache : Cache) : Option Datum × Cache :=
  match atts[attnum]? with
  | none => (none, cache)
  | some att =>
    if attnum ≥ tuple.natts then (none, cache)
    else
      match tuple.hasNulls, cache attnum with
      | false, some cached => (some (fetchatt att (tuple.data.drop cached)), cache)
      | _, _ =>
        if tuple.isnull attnum then (none, cache)
        else
          let (datum, cache) := nocachegetattr tuple att attnum atts cache
          (some datum, cache)

end Deform

end BlockchainPG.Access.Tuple
