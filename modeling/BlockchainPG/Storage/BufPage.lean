import BlockchainPG.Lib.Memory
import BlockchainPG.Lib.Slots

/-! The slotted page of `bufpage.c`. -/

namespace BlockchainPG.Storage

section

open Lib Function

/-- `BLCKSZ` -/
def pageSize : Nat := 8192

def sizeOfPageHeaderData : Nat := 24

/-- `sizeof(ItemIdData)` -/
def sizeOfItemIdData : Nat := 4

/-- `MaxOffsetNumber` -/
def maxOffset : Nat := 2048

def maxHeapTuplesPerPage : Nat := 291

def maxAlign (size : Nat) : Nat := (size + 7) / 8 * 8

inductive LpFlags where
  | unused
  | normal
  | redirect
  | dead
deriving DecidableEq

/-- A line pointer. -/
structure ItemIdData where
  off : Nat
  flags : LpFlags
  len : Nat
deriving DecidableEq

namespace ItemIdData

def isUsed (itemId : ItemIdData) : Bool := itemId.flags ≠ .unused

def hasStorage (itemId : ItemIdData) : Bool := itemId.len ≠ 0

/-- What `ItemIdSetUnused` leaves. -/
def setUnused : ItemIdData := ⟨0, .unused, 0⟩

end ItemIdData

/-- The fields of the header, the array of line pointers and the bytes of the page;
`hasFreeLines` is `PD_HAS_FREE_LINES`. -/
structure Page where
  pdLower : Nat
  pdUpper : Nat
  pdSpecial : Nat
  hasFreeLines : Bool
  linp : Nat → ItemIdData
  bytes : Nat → UInt8

/-- `ereport` of `bufpage.c`. -/
inductive PageError where
  | corruptedPagePointers (lower upper special : Nat)
  | corruptedItemPointer (itemoff : Nat)
  | corruptedIndexPointer (offset size : Nat)
  | corruptedItemLengths (total available : Nat)
  | invalidIndexOffnum (offnum : Nat)
  | incorrectIndexOffsets
deriving DecidableEq

namespace Page

/-- `PageGetMaxOffsetNumber` -/
def maxOffsetNumber (page : Page) : Nat :=
  if page.pdLower ≤ sizeOfPageHeaderData then 0 else (page.pdLower - sizeOfPageHeaderData) / sizeOfItemIdData

def lines (page : Page) : List ItemIdData := slots page.linp page.maxOffsetNumber

def corrupted (page : Page) : Bool :=
  page.pdLower < sizeOfPageHeaderData || page.pdLower > page.pdUpper || page.pdUpper > page.pdSpecial ||
    page.pdSpecial > pageSize

def pointersError (page : Page) : PageError :=
  .corruptedPagePointers page.pdLower page.pdUpper page.pdSpecial

end Page

/-- `PageInit` of a page of `BLCKSZ` bytes. -/
def pageInit (specialSize : Nat) : Page where
  pdLower := sizeOfPageHeaderData
  pdUpper := pageSize - maxAlign specialSize
  pdSpecial := pageSize - maxAlign specialSize
  hasFreeLines := false
  linp := fun _ => .setUnused
  bytes := fun _ => 0

/-- The part of `PageAddItem` that selects the place of the new line pointer, and
whether others have to be moved; `none` if that place is in use. -/
def selectOffset (page : Page) (offsetNumber : Nat) (overwrite : Bool) : Page × Option (Nat × Bool) :=
  let limit := page.maxOffsetNumber + 1
  if offsetNumber ≠ 0 ∧ offsetNumber ≤ maxOffset then
    if overwrite then
      let itemId := page.linp (offsetNumber - 1)
      if offsetNumber < limit ∧ (itemId.isUsed || itemId.hasStorage) then (page, none)
      else (page, some (offsetNumber, false))
    else (page, some (offsetNumber, decide (offsetNumber < limit)))
  else if page.hasFreeLines then
    let free := page.lines.findIdx (fun itemId => !itemId.isUsed && !itemId.hasStorage) + 1
    if free ≥ limit then ({ page with hasFreeLines := false }, some (free, false)) else (page, some (free, false))
  else (page, some (limit, false))

/-- A `Size` as an `int`. -/
def toInt (size : Nat) : Int := (BitVec.ofNat 32 size).toInt

/-- `pd_upper` less the aligned size of an item, in the arithmetic of `int`. -/
def upperFor (page : Page) (item : List UInt8) : Int :=
  Int.bmod (page.pdUpper - toInt (maxAlign item.length)) (2 ^ 32)

/-- The rest of `PageAddItem`: put the item where it goes if there is room. -/
def placeItem (page : Page) (item : List UInt8) (offsetNumber : Nat) (needshuffle : Bool) : Page × Nat :=
  let limit := page.maxOffsetNumber + 1
  let lower : Int := if offsetNumber = limit ∨ needshuffle = true then page.pdLower + sizeOfItemIdData else page.pdLower
  let upper := upperFor page item
  if lower > upper then (page, 0)
  else
    let linp := if needshuffle then memmove page.linp offsetNumber (offsetNumber - 1) (limit - offsetNumber)
      else page.linp
    ({ page with
        linp := update linp (offsetNumber - 1)
          ⟨(upper % 2 ^ 15).toNat, .normal, item.length % 2 ^ 15⟩
        bytes := memcpy page.bytes upper.toNat item
        pdLower := lower.toNat
        pdUpper := (upper % 2 ^ 16).toNat }, offsetNumber)

/-- `PageAddItem`; the offset number 0 is `InvalidOffsetNumber`. -/
def pageAddItem (page : Page) (item : List UInt8) (offsetNumber : Nat) (overwrite isHeap : Bool) :
    Page × Except PageError Nat :=
  if page.corrupted then (page, .error page.pointersError)
  else
    match selectOffset page offsetNumber overwrite with
    | (page, none) => (page, .ok 0)
    | (page, some (offsetNumber, needshuffle)) =>
      if offsetNumber > page.maxOffsetNumber + 1 then (page, .ok 0)
      else if isHeap && offsetNumber > maxHeapTuplesPerPage then (page, .ok 0)
      else
        let placed := placeItem page item offsetNumber needshuffle
        (placed.1, .ok placed.2)

/-- `itemIdSortData` -/
structure ItemIdSort where
  offsetindex : Nat
  itemoff : Nat
  alignedlen : Nat
  olditemid : ItemIdData
deriving DecidableEq

/-- `qsort` with `itemoffcompare`, which leaves items of the same offset in any order. -/
structure Qsort where
  sort : List ItemIdSort → List ItemIdSort
  perm : ∀ items, (sort items).Perm items
  sorted : ∀ items, (sort items).Pairwise fun first second => second.itemoff ≤ first.itemoff

/-- A `qsort` that sorts by insertion. -/
def insertionQsort : Qsort where
  sort := List.insertionSort fun first second => second.itemoff ≤ first.itemoff
  perm := List.perm_insertionSort _
  sorted items := by
    grind [List.pairwise_insertionSort]

/-- The loop that moves the items to the upper end, where `install` gives the line
pointer of an item but for its offset. -/
def compactify (install : ItemIdSort → (Nat → ItemIdData) → ItemIdData) : List ItemIdSort → Nat → Page → Nat × Page
  | [], upper, page => (upper, page)
  | item :: rest, upper, page =>
    let upper := upper - item.alignedlen
    compactify install rest upper { page with
      bytes := memmove page.bytes upper item.itemoff item.alignedlen
      linp := update page.linp item.offsetindex { install item page.linp with off := upper } }

def storageItems (page : Page) : List ItemIdSort :=
  ((List.range page.maxOffsetNumber).filter fun i => (page.linp i).hasStorage).map fun i =>
    ⟨i, (page.linp i).off, maxAlign (page.linp i).len, page.linp i⟩

/-- The middle part of `PageRepairFragmentation`, after unused line pointers have been cleared. -/
def repairStorage (qsort : Qsort) (page : Page) : Page × Option PageError :=
  if page.lines.countP (fun itemId => itemId.isUsed && itemId.hasStorage) = 0 then
    ({ page with pdUpper := page.pdSpecial }, none)
  else
    let items := storageItems page
    match items.find? fun item => item.itemoff < page.pdUpper || item.itemoff ≥ page.pdSpecial with
    | some item => (page, some (.corruptedItemPointer item.itemoff))
    | none =>
      let totallen := (items.map ItemIdSort.alignedlen).sum
      if totallen > page.pdSpecial - page.pdLower then
        (page, some (.corruptedItemLengths totallen (page.pdSpecial - page.pdLower)))
      else
        let moved := compactify (fun item linp => linp item.offsetindex) (qsort.sort items) page.pdSpecial page
        ({ moved.2 with pdUpper := moved.1 }, none)

def pageRepairFragmentation (qsort : Qsort) (page : Page) : Page × Option PageError :=
  if page.corrupted || page.pdSpecial != maxAlign page.pdSpecial then (page, some page.pointersError)
  else
    let cleared := { page with linp := fun i =>
      if i < page.maxOffsetNumber ∧ (page.linp i).isUsed = false then .setUnused else page.linp i }
    match repairStorage qsort cleared with
    | (page, some error) => (page, some error)
    | (page, none) =>
      ({ page with hasFreeLines := decide (cleared.lines.countP (fun itemId => !itemId.isUsed) > 0) }, none)

def pageIndexTupleDelete (page : Page) (offnum : Nat) : Page × Option PageError :=
  if page.corrupted then (page, some page.pointersError)
  else if offnum = 0 ∨ offnum > page.maxOffsetNumber then (page, some (.invalidIndexOffnum offnum))
  else
    let offidx := offnum - 1
    let size := (page.linp offidx).len
    let offset := (page.linp offidx).off
    if offset < page.pdUpper ∨ offset + size > page.pdSpecial ∨ offset ≠ maxAlign offset ∨ size ≠ maxAlign size then
      (page, some (.corruptedIndexPointer offset size))
    else
      let nline := page.maxOffsetNumber - 1
      let linp := memmove page.linp offidx (offidx + 1) (nline - offidx)
      ({ page with
          linp := fun i =>
            if i < nline ∧ (linp i).off ≤ offset then { linp i with off := (linp i).off + size } else linp i
          bytes := if offset > page.pdUpper then
              memmove page.bytes (page.pdUpper + size) page.pdUpper (offset - page.pdUpper)
            else page.bytes
          pdUpper := page.pdUpper + size
          pdLower := page.pdLower - sizeOfItemIdData }, none)

def deleteAll (page : Page) : List Nat → Page × Option PageError
  | [] => (page, none)
  | offnum :: rest =>
    match pageIndexTupleDelete page offnum with
    | (page, none) => deleteAll page rest
    | (page, some error) => (page, some error)

/-- The scan of `PageIndexMultiDelete` for the items to keep, with what is left of `itemnos`. -/
def keptItems (page : Page) : List Nat → List Nat → Nat → Except PageError (List ItemIdSort × List Nat)
  | [], itemnos, _ => .ok ([], itemnos)
  | offnum :: rest, itemnos, nused =>
    let lp := page.linp (offnum - 1)
    if lp.off < page.pdUpper ∨ lp.off + lp.len > page.pdSpecial ∨ lp.off ≠ maxAlign lp.off then
      .error (.corruptedIndexPointer lp.off lp.len)
    else if itemnos.head? = some offnum then keptItems page rest itemnos.tail nused
    else
      match keptItems page rest itemnos (nused + 1) with
      | .error error => .error error
      | .ok (kept, left) => .ok (⟨nused, lp.off, maxAlign lp.len, lp⟩ :: kept, left)

def pageIndexMultiDelete (qsort : Qsort) (page : Page) (itemnos : List Nat) : Page × Option PageError :=
  if itemnos.length ≤ 2 then deleteAll page itemnos.reverse
  else if page.corrupted || page.pdSpecial != maxAlign page.pdSpecial then (page, some page.pointersError)
  else
    match keptItems page (List.range' 1 page.maxOffsetNumber) itemnos 0 with
    | .error error => (page, some error)
    | .ok (kept, left) =>
      let totallen := (kept.map ItemIdSort.alignedlen).sum
      if left ≠ [] then (page, some .incorrectIndexOffsets)
      else if totallen > page.pdSpecial - page.pdLower then
        (page, some (.corruptedItemLengths totallen (page.pdSpecial - page.pdLower)))
      else
        let moved := compactify (fun item _ => item.olditemid) (qsort.sort kept) page.pdSpecial page
        ({ moved.2 with
            pdLower := sizeOfPageHeaderData + kept.length * sizeOfItemIdData
            pdUpper := moved.1 }, none)

end

open Lib Function List

theorem maxAlign_spec (size : Nat) : size ≤ maxAlign size ∧ maxAlign size < size + 8 ∧ maxAlign size % 8 = 0 := by
  unfold maxAlign
  omega

theorem maxAlign_of_aligned (aligned : size % 8 = 0) : maxAlign size = size := by
  unfold maxAlign
  omega

theorem toInt_of_lt (small : size < 2 ^ 31) : toInt size = size := by
  rw [toInt, BitVec.toInt_eq_toNat_of_lt, BitVec.toNat_ofNat, Nat.mod_eq_of_lt (by omega)]
  rw [BitVec.toNat_ofNat, Nat.mod_eq_of_lt (by omega)]
  omega

theorem upperFor_eq {page : Page} (small : maxAlign item.length < 2 ^ 31) (top : page.pdUpper ≤ pageSize) :
    upperFor page item = page.pdUpper - maxAlign item.length := by
  unfold pageSize at top
  rw [upperFor, toInt_of_lt small, Int.bmod_eq_of_le] <;> omega

/-- The extents of two items with their padding do not overlap. -/
def Apart (first second : ItemIdData) : Prop :=
  first.off + maxAlign first.len ≤ second.off ∨ second.off + maxAlign second.len ≤ first.off

/-- The boundaries of a page are in order, and the stored items lie between them and
apart from each other. -/
structure Layout (stored : ItemIdData → Prop) (page : Page) : Prop where
  lower : page.pdLower = sizeOfPageHeaderData + sizeOfItemIdData * page.maxOffsetNumber
  lower_le : page.pdLower ≤ page.pdUpper
  upper_le : page.pdUpper ≤ page.pdSpecial
  special_le : page.pdSpecial ≤ pageSize
  aligned : page.pdSpecial % 8 = 0
  upperAligned : page.pdUpper % 8 = 0
  inside : ∀ itemId ∈ page.lines, stored itemId →
    page.pdUpper ≤ itemId.off ∧ itemId.off + maxAlign itemId.len ≤ page.pdSpecial ∧ itemId.off % 8 = 0
  apart : page.lines.Pairwise fun first second => stored first → stored second → Apart first second

theorem lines_length (page : Page) : page.lines.length = page.maxOffsetNumber := by
  simp [Page.lines, slots]

theorem Layout.sound (layout : Layout stored page) : page.corrupted = false := by
  have lower := layout.lower
  have first := layout.lower_le
  have second := layout.upper_le
  have third := layout.special_le
  simp only [Page.corrupted, Bool.or_eq_false_iff, decide_eq_false_iff_not]
  omega

theorem Layout.sound_special (layout : Layout stored page) :
    (page.corrupted || page.pdSpecial != maxAlign page.pdSpecial) = false := by
  rw [layout.sound, maxAlign_of_aligned layout.aligned]
  simp

theorem maxOffsetNumber_of_lower {page : Page} (lower : page.pdLower = sizeOfPageHeaderData + sizeOfItemIdData * n) :
    page.maxOffsetNumber = n := by
  simp only [Page.maxOffsetNumber, lower, sizeOfPageHeaderData, sizeOfItemIdData]
  split <;> omega

theorem pageInit_layout (aligned : specialSize % 8 = 0) (room : specialSize + sizeOfPageHeaderData < pageSize) :
    Layout stored (pageInit specialSize) := by
  have special := maxAlign_of_aligned aligned
  have empty : (pageInit specialSize).lines = [] := rfl
  unfold sizeOfPageHeaderData pageSize at room
  refine ⟨rfl, ?_, Nat.le_refl _, ?_, ?_, ?_, ?_, ?_⟩
  · simp only [pageInit, special, sizeOfPageHeaderData, pageSize]
    omega
  · simp only [pageInit]
    omega
  · simp only [pageInit, special, pageSize]
    omega
  · simp only [pageInit, special, pageSize]
    omega
  all_goals simp [empty]

theorem Layout.rebuild (layout : Layout stored page)
    (lower : page'.pdLower = sizeOfPageHeaderData + sizeOfItemIdData * page'.maxOffsetNumber)
    (lower_le : page'.pdLower ≤ page'.pdUpper) (upper_le : page'.pdUpper ≤ page.pdSpecial)
    (upperAligned : page'.pdUpper % 8 = 0) (special : page'.pdSpecial = page.pdSpecial)
    (inside : ∀ itemId ∈ page'.lines, stored itemId →
      page'.pdUpper ≤ itemId.off ∧ itemId.off + maxAlign itemId.len ≤ page.pdSpecial ∧ itemId.off % 8 = 0)
    (apart : page'.lines.Pairwise fun first second => stored first → stored second → Apart first second) :
    Layout stored page' :=
  ⟨lower, lower_le, by rw [special]; exact upper_le, by rw [special]; exact layout.special_le,
    by rw [special]; exact layout.aligned, upperAligned, by rw [special]; exact inside, apart⟩

def newItemId (page : Page) (item : List UInt8) : ItemIdData :=
  ⟨page.pdUpper - maxAlign item.length, .normal, item.length⟩

/-- What it means that an item has been put on a page: its line pointer is among the
others, or instead of another one that has no storage. -/
structure Placed (page page' : Page) (item : List UInt8) (offsetNumber : Nat) (needshuffle : Bool) : Prop where
  room : maxAlign item.length ≤ page.pdUpper
  lower : page'.pdLower = sizeOfPageHeaderData + sizeOfItemIdData * page'.maxOffsetNumber
  lower_le : page'.pdLower ≤ page'.pdUpper
  upper : page'.pdUpper = page.pdUpper - maxAlign item.length
  special : page'.pdSpecial = page.pdSpecial
  bytes : page'.bytes = memcpy page.bytes (page.pdUpper - maxAlign item.length) item
  lines : page'.lines = if offsetNumber = page.maxOffsetNumber + 1 ∨ needshuffle = true then
      page.lines.take (offsetNumber - 1) ++ newItemId page item :: page.lines.drop (offsetNumber - 1)
    else page.lines.set (offsetNumber - 1) (newItemId page item)

theorem slots_memmove_up (linp : Nat → α) (inside : k ≤ n) (new : α) :
    slots (update (memmove linp (k + 1) k (n - k)) k new) (n + 1) =
      (slots linp n).take k ++ new :: (slots linp n).drop k := by
  rw [← slots_insertAt inside]
  refine slots_congr fun i below => ?_
  rcases Nat.lt_trichotomy i k with less | rfl | more
  · rw [update_of_ne (by omega), memmove_outside _ _ (by omega), insertAt_of_lt less]
  · rw [update_self, insertAt_self]
  · rw [update_of_ne (by omega), insertAt_of_gt more]
    have moved : memmove linp (k + 1) k (n - k) (k + 1 + (i - (k + 1))) = linp (k + (i - (k + 1))) :=
      memmove_inside linp k (by omega)
    rwa [show k + 1 + (i - (k + 1)) = i by omega, show k + (i - (k + 1)) = i - 1 by omega] at moved

theorem Placed.of_fields {page' : Page} (room : maxAlign item.length ≤ page.pdUpper) (n : Nat)
    (lower : page'.pdLower = sizeOfPageHeaderData + sizeOfItemIdData * n)
    (lower_le : page'.pdLower ≤ page.pdUpper - maxAlign item.length)
    (upper : page'.pdUpper = page.pdUpper - maxAlign item.length) (special : page'.pdSpecial = page.pdSpecial)
    (bytes : page'.bytes = memcpy page.bytes (page.pdUpper - maxAlign item.length) item)
    (lines : slots page'.linp n = if offsetNumber = page.maxOffsetNumber + 1 ∨ needshuffle = true then
        page.lines.take (offsetNumber - 1) ++ newItemId page item :: page.lines.drop (offsetNumber - 1)
      else page.lines.set (offsetNumber - 1) (newItemId page item)) :
    Placed page page' item offsetNumber needshuffle := by
  have count := maxOffsetNumber_of_lower lower
  exact ⟨room, by rw [count, lower], by rw [upper]; exact lower_le, upper, special, bytes,
    by rw [Page.lines, count, lines]⟩

theorem fields_of_room (room : size ≤ upper) (upper_le : upper ≤ pageSize) :
    ((upper : Int) - size).toNat = upper - size ∧ (((upper : Int) - size) % 2 ^ 15).toNat = upper - size ∧
      (((upper : Int) - size) % 2 ^ 16).toNat = upper - size := by
  unfold pageSize at upper_le
  omega

theorem placeItem_spec (layout : Layout stored page) (small : item.length + 7 < 2 ^ 31) (pos : 0 < offsetNumber)
    (limit : offsetNumber ≤ page.maxOffsetNumber + 1)
    (shuffles : needshuffle = true → offsetNumber ≤ page.maxOffsetNumber) :
    placeItem page item offsetNumber needshuffle = (page, 0) ∨
      ((placeItem page item offsetNumber needshuffle).2 = offsetNumber ∧
        Placed page (placeItem page item offsetNumber needshuffle).1 item offsetNumber needshuffle) := by
  obtain ⟨size_le, size_lt, -⟩ := maxAlign_spec item.length
  have lower := layout.lower
  have top : page.pdUpper ≤ pageSize := Nat.le_trans layout.upper_le layout.special_le
  have padded : maxAlign item.length < 2 ^ 31 := by omega
  by_cases grows : offsetNumber = page.maxOffsetNumber + 1 ∨ needshuffle = true
  · simp only [placeItem, upperFor_eq padded top, if_pos grows]
    by_cases fits : (page.pdLower + sizeOfItemIdData : Int) > page.pdUpper - maxAlign item.length
    · exact Or.inl (if_pos fits)
    · have room : maxAlign item.length ≤ page.pdUpper := by omega
      obtain ⟨asNat, asOff, asUpper⟩ := fields_of_room room top
      have len : item.length % 2 ^ 15 = item.length := Nat.mod_eq_of_lt (by unfold pageSize at top; omega)
      right
      rw [if_neg fits]
      refine ⟨rfl, Placed.of_fields room (page.maxOffsetNumber + 1) ?_ ?_ asUpper rfl
        (congrArg (memcpy page.bytes · item) asNat) ?_⟩
      · dsimp only
        rw [lower]
        simp only [sizeOfPageHeaderData, sizeOfItemIdData]
        omega
      · dsimp only
        omega
      · rw [if_pos grows]
        simp only [asOff, len]
        cases needshuffle with
        | true =>
          have inside := shuffles rfl
          have moved := slots_memmove_up page.linp (show offsetNumber - 1 ≤ page.maxOffsetNumber by omega)
            (newItemId page item)
          rwa [show offsetNumber - 1 + 1 = offsetNumber by omega,
            show page.maxOffsetNumber - (offsetNumber - 1) = page.maxOffsetNumber + 1 - offsetNumber by omega] at moved
        | false =>
          obtain rfl : offsetNumber = page.maxOffsetNumber + 1 := by simpa using grows
          have whole := lines_length page
          simp only [Bool.false_eq_true, ↓reduceIte, Nat.add_sub_cancel]
          rw [take_of_length_le (by omega), drop_of_length_le (by omega), slots_succ, update_self]
          refine congrArg (· ++ _) (slots_congr fun i below => update_of_ne (by omega) ..)
  · obtain ⟨-, noShuffle⟩ := not_or.mp grows
    simp only [placeItem, upperFor_eq padded top, if_neg grows]
    by_cases fits : (page.pdLower : Int) > page.pdUpper - maxAlign item.length
    · exact Or.inl (if_pos fits)
    · have room : maxAlign item.length ≤ page.pdUpper := by omega
      obtain ⟨asNat, asOff, asUpper⟩ := fields_of_room room top
      have len : item.length % 2 ^ 15 = item.length := Nat.mod_eq_of_lt (by unfold pageSize at top; omega)
      right
      rw [if_neg fits]
      refine ⟨rfl, Placed.of_fields room page.maxOffsetNumber ?_ ?_ asUpper rfl
        (congrArg (memcpy page.bytes · item) asNat) ?_⟩
      · exact (Int.toNat_natCast _).trans lower
      · dsimp only
        omega
      · rw [if_neg grows]
        simp only [noShuffle, asOff, len]
        exact slots_update page.linp page.maxOffsetNumber (offsetNumber - 1) _

theorem Placed.perm (placed : Placed page page' item offsetNumber needshuffle) (pos : 0 < offsetNumber)
    (limit : offsetNumber ≤ page.maxOffsetNumber + 1) :
    ∃ rest, page'.lines.Perm (newItemId page item :: rest) ∧ rest.Sublist page.lines := by
  have whole := lines_length page
  rw [placed.lines]
  split
  · refine ⟨page.lines.take (offsetNumber - 1) ++ page.lines.drop (offsetNumber - 1), perm_middle, ?_⟩
    rw [take_append_drop]
  · next grows =>
    have inside : offsetNumber - 1 < page.lines.length := by
      have := mt Or.inl grows
      omega
    refine ⟨page.lines.take (offsetNumber - 1) ++ page.lines.drop (offsetNumber - 1 + 1), ?_, ?_⟩
    · rw [set_eq_take_append_cons_drop, if_pos inside]
      exact perm_middle
    · rw [← eraseIdx_eq_take_drop_succ]
      exact eraseIdx_sublist ..

theorem Layout.placed (layout : Layout stored page) (placed : Placed page page' item offsetNumber needshuffle)
    (pos : 0 < offsetNumber) (limit : offsetNumber ≤ page.maxOffsetNumber + 1) : Layout stored page' := by
  obtain ⟨rest, perm, sublist⟩ := placed.perm pos limit
  have room := placed.room
  have upper := placed.upper
  have bound := layout.upper_le
  have upperAligned := layout.upperAligned
  obtain ⟨-, -, padding⟩ := maxAlign_spec item.length
  have above {itemId : ItemIdData} (mem : itemId ∈ rest) (isStored : stored itemId) :=
    layout.inside itemId (sublist.subset mem) isStored
  refine layout.rebuild placed.lower placed.lower_le (by omega) (by omega) placed.special ?_ ?_
  · intro itemId mem isStored
    rcases mem_cons.mp (perm.subset mem) with rfl | old
    · simp only [newItemId]
      omega
    · obtain ⟨first, second, third⟩ := above old isStored
      exact ⟨by omega, second, third⟩
  · refine (perm.pairwise_iff fun apart isStored isStored' => ?_).mpr (pairwise_cons.mpr ⟨?_, ?_⟩)
    · exact (apart isStored' isStored).symm
    · intro itemId mem _ isStored
      left
      have := (above mem isStored).1
      simp only [newItemId]
      omega
    · exact layout.apart.sublist sublist

theorem Placed.contents_old {itemId : ItemIdData} (placed : Placed page page' item offsetNumber needshuffle)
    (outside : itemId.len = 0 ∨ page.pdUpper ≤ itemId.off) :
    contents page'.bytes itemId.off itemId.len = contents page.bytes itemId.off itemId.len := by
  have room := placed.room
  obtain ⟨size_le, -, -⟩ := maxAlign_spec item.length
  refine contents_congr fun i inside => ?_
  rw [placed.bytes]
  refine memcpy_outside _ ?_
  omega

theorem Placed.contents_new (placed : Placed page page' item offsetNumber needshuffle) :
    contents page'.bytes (newItemId page item).off (newItemId page item).len = item := by
  rw [placed.bytes]
  exact contents_memcpy ..

/-- The items are moved to the upper end: each one keeps its bytes and gets its new
offset, and nothing else changes. -/
theorem compactify_spec (install : ItemIdSort → (Nat → ItemIdData) → ItemIdData) (old : ItemIdSort → ItemIdData)
    (page : Page) (installs : ∀ item ∈ items, ∀ linp, linp item.offsetindex = page.linp item.offsetindex →
      install item linp = old item)
    (distinct : (items.map ItemIdSort.offsetindex).Nodup)
    (descending : Descending upper (items.map fun item => (item.itemoff, item.alignedlen)))
    (upperAligned : upper % 8 = 0) (aligned : ∀ item ∈ items, item.alignedlen % 8 = 0) :
    ∃ (page' : Page) (bottom : Nat) (place : ItemIdSort → Nat),
      compactify install items upper page = (bottom, { page with linp := page'.linp, bytes := page'.bytes }) ∧
      bottom + (items.map ItemIdSort.alignedlen).sum = upper ∧ bottom % 8 = 0 ∧
      (∀ item ∈ items, page'.linp item.offsetindex = { old item with off := place item } ∧
        contents page'.bytes (place item) item.alignedlen = contents page.bytes item.itemoff item.alignedlen ∧
        bottom ≤ place item ∧ place item + item.alignedlen ≤ upper ∧ place item % 8 = 0) ∧
      (∀ i ∉ items.map ItemIdSort.offsetindex, page'.linp i = page.linp i) ∧
      items.Pairwise (fun first second => place second + second.alignedlen ≤ place first) ∧
      ∀ p, upper ≤ p → page'.bytes p = page.bytes p := by
  induction items generalizing upper page with
  | nil =>
    exact ⟨page, upper, fun _ => 0, rfl, by simp, upperAligned, nofun, fun _ _ => rfl, .nil, fun _ _ => rfl⟩
  | cons item rest ih =>
    rw [map_cons, nodup_cons] at distinct
    rw [map_cons] at descending
    obtain ⟨precedes, -⟩ := pairwise_cons.mp descending.order
    have under : item.itemoff + item.alignedlen ≤ upper := descending.below _ mem_cons_self
    have own := aligned item mem_cons_self
    have other : ∀ later ∈ rest, later.offsetindex ≠ item.offsetindex := fun later mem same =>
      distinct.1 (mem_map.mpr ⟨later, mem, same⟩)
    obtain ⟨page', bottom, place, same, sum, bottomAligned, moved, kept, order, above⟩ := @ih
      (upper - item.alignedlen)
      { page with
        bytes := memmove page.bytes (upper - item.alignedlen) item.itemoff item.alignedlen
        linp := update page.linp item.offsetindex
          { install item page.linp with off := upper - item.alignedlen } }
      (fun later mem linp unchanged => installs later (mem_cons_of_mem _ mem) linp
        (unchanged.trans (update_of_ne (other later mem) ..)))
      distinct.2 descending.tail (by omega) (fun later mem => aligned later (mem_cons_of_mem _ mem))
    have ne : ∀ later ∈ rest, later ≠ item := fun later mem same => other later mem (congrArg _ same)
    refine ⟨page', bottom, fun later => if later = item then upper - item.alignedlen else place later, same, ?_,
      bottomAligned, fun later mem => ?_, fun i unlisted => ?_, pairwise_cons.mpr ⟨fun later mem => ?_, ?_⟩,
        fun p high => ?_⟩
    · rw [map_cons, sum_cons]
      omega
    · rcases mem_cons.mp mem with rfl | inRest
      · simp only [↓reduceIte]
        refine ⟨?_, contents_congr fun i inside => ?_, by omega, by omega, by omega⟩
        · rw [kept _ distinct.1]
          simp only [update_self, installs later mem_cons_self page.linp rfl]
        · rw [above _ (Nat.le_add_right ..)]
          exact memmove_inside page.bytes later.itemoff inside
      · obtain ⟨line, bytes, low, high, placeAligned⟩ := moved later inRest
        simp only [ne later inRest, ↓reduceIte]
        refine ⟨line, bytes.trans (contents_congr fun i inside => memmove_outside _ _ ?_), low, by omega, placeAligned⟩
        rcases precedes _ (mem_map_of_mem inRest) with empty | before
        · have empty : item.alignedlen = 0 := empty
          omega
        · have before : later.itemoff + later.alignedlen ≤ item.itemoff := before
          omega
    · rw [map_cons, mem_cons, not_or] at unlisted
      rw [kept i unlisted.2]
      exact update_of_ne unlisted.1 ..
    · have bound := (moved later mem).2.2.2.1
      simp only [ne later mem, ↓reduceIte]
      exact bound
    · refine order.imp_of_mem fun first second before => ?_
      simp only [ne _ first, ne _ second, ↓reduceIte]
      exact before
    · rw [above p (by omega)]
      exact memmove_outside _ _ (by omega)

theorem Layout.apart_of_ne (layout : Layout stored page) (first : i < page.maxOffsetNumber)
    (second : j < page.maxOffsetNumber) (ne : i ≠ j) (isStored : stored (page.linp i))
    (isStored' : stored (page.linp j)) : Apart (page.linp i) (page.linp j) := by
  have order := pairwise_map.mp layout.apart
  have either : (List.range page.maxOffsetNumber).Pairwise fun i j =>
      stored (page.linp i) → stored (page.linp j) → Apart (page.linp i) (page.linp j) := order
  have symmetric : Std.Symm fun i j =>
      stored (page.linp i) → stored (page.linp j) → Apart (page.linp i) (page.linp j) :=
    ⟨fun _ _ apart one other => (apart other one).symm⟩
  exact either.forall (mem_range.mpr first) (mem_range.mpr second) ne isStored isStored'

theorem descending_of_apart {items : List ItemIdSort}
    (sorted : items.Pairwise fun first second => second.itemoff ≤ first.itemoff)
    (apart : items.Pairwise fun first second => first.itemoff + first.alignedlen ≤ second.itemoff ∨
      second.itemoff + second.alignedlen ≤ first.itemoff)
    (below : ∀ item ∈ items, item.itemoff + item.alignedlen ≤ upper) :
    Descending upper (items.map fun item => (item.itemoff, item.alignedlen)) := by
  refine ⟨fun extent mem => ?_, pairwise_map.mpr ((sorted.and apart).imp fun both => ?_)⟩
  · obtain ⟨item, inItems, rfl⟩ := mem_map.mp mem
    exact below item inItems
  · unfold Precedes
    simp only
    omega

theorem Qsort.descending (qsort : Qsort) {items : List ItemIdSort} (low_le : low ≤ upper)
    (apart : items.Pairwise fun first second => first.itemoff + first.alignedlen ≤ second.itemoff ∨
      second.itemoff + second.alignedlen ≤ first.itemoff)
    (inside : ∀ item ∈ items, low ≤ item.itemoff ∧ item.itemoff + item.alignedlen ≤ upper) :
    Descending upper ((qsort.sort items).map fun item => (item.itemoff, item.alignedlen)) ∧
      (items.map ItemIdSort.alignedlen).sum ≤ upper - low := by
  have perm := qsort.perm items
  have descending := descending_of_apart (qsort.sorted items) ((perm.pairwise_iff Or.symm).mpr apart)
    fun item mem => (inside item (perm.subset mem)).2
  refine ⟨descending, ?_⟩
  have bound := descending.sum_le low_le fun extent mem => ?_
  · rw [map_map] at bound
    rw [← (perm.map ItemIdSort.alignedlen).sum_nat]
    exact bound
  · obtain ⟨item, inItems, rfl⟩ := mem_map.mp mem
    exact (inside item (perm.subset inItems)).1

end BlockchainPG.Storage
