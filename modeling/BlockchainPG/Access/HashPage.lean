import BlockchainPG.Lib.Sorted
import BlockchainPG.Storage.BufPage

/-! The pages of a hash index, with the binary searches of `hashutil.c`. -/

namespace BlockchainPG.Access.Hash

open Lib Storage List

/-- An index tuple; `size` is its `IndexTupleDSize`. -/
structure IndexTuple (Tid : Type u) where
  hashkey : Nat
  tid : Tid
  size : Nat
deriving DecidableEq

/-- `itemsz` as the routines compute it. -/
def IndexTuple.itemsz {Tid : Type u} (itup : IndexTuple Tid) : Nat := maxAlign itup.size

/-- `MAXALIGN(sizeof(HashPageOpaqueData))` -/
def sizeOfHashPageOpaqueData : Nat := 16

/-- The tuples of a bucket or overflow page, by offset number. -/
structure HashPage (Tid : Type u) where
  items : List (IndexTuple Tid)

variable {Tid : Type u}

namespace HashPage

/-- What `_hash_pageinit` leaves. -/
def empty : HashPage Tid := ⟨[]⟩

/-- `PageGetMaxOffsetNumber` -/
def maxOffsetNumber (page : HashPage Tid) : Nat := page.items.length

/-- The tuple at an offset number, counted from one. -/
def item (page : HashPage Tid) (offnum : Nat) : Option (IndexTuple Tid) := page.items[offnum - 1]?

/-- `PageGetFreeSpace` -/
def freeSpace (page : HashPage Tid) : Nat :=
  let space := pageSize - sizeOfPageHeaderData - sizeOfHashPageOpaqueData -
    (page.items.map fun itup => itup.itemsz + sizeOfItemIdData).sum
  if space < sizeOfItemIdData then 0 else space - sizeOfItemIdData

/-- `PageAddItem` at an offset number; later line pointers move up. -/
def addItem (page : HashPage Tid) (itup : IndexTuple Tid) (offnum : Nat) : HashPage Tid :=
  ⟨page.items.take (offnum - 1) ++ itup :: page.items.drop (offnum - 1)⟩

/-- `PageAddItem` at `OffsetNumberNext(PageGetMaxOffsetNumber(page))`. -/
def appendItem (page : HashPage Tid) (itup : IndexTuple Tid) : HashPage Tid :=
  page.addItem itup (page.maxOffsetNumber + 1)

/-- The hash keys on the page do not decrease. -/
def Ordered (page : HashPage Tid) : Prop := Sorted IndexTuple.hashkey page.items

instance (page : HashPage Tid) : Decidable page.Ordered := inferInstanceAs (Decidable (Sorted _ _))

theorem appendItem_items (page : HashPage Tid) (itup : IndexTuple Tid) :
    (page.appendItem itup).items = page.items ++ [itup] := by
  simp [appendItem, addItem, maxOffsetNumber]

end HashPage

/-- The loop of `_hash_binsearch`. -/
def binsearchLoop (page : HashPage Tid) (hashValue lower upper : Nat) : Nat :=
  if upper > lower then
    let off := (upper + lower) / 2
    match page.item off with
    | none => lower
    | some itup =>
      if itup.hashkey < hashValue then binsearchLoop page hashValue (off + 1) upper
      else binsearchLoop page hashValue lower off
  else lower
termination_by upper - lower

def hashBinsearch (page : HashPage Tid) (hashValue : Nat) : Nat :=
  binsearchLoop page hashValue 1 (page.maxOffsetNumber + 1)

/-- The loop of `_hash_binsearch_last`. -/
def binsearchLastLoop (page : HashPage Tid) (hashValue lower upper : Nat) : Nat :=
  if upper > lower then
    let off := (upper + lower + 1) / 2
    match page.item off with
    | none => lower
    | some itup =>
      if itup.hashkey > hashValue then binsearchLastLoop page hashValue lower (off - 1)
      else binsearchLastLoop page hashValue off upper
  else lower
termination_by upper - lower

def hashBinsearchLast (page : HashPage Tid) (hashValue : Nat) : Nat :=
  binsearchLastLoop page hashValue 0 page.maxOffsetNumber

def hashPgaddtup (page : HashPage Tid) (itup : IndexTuple Tid) : HashPage Tid :=
  page.addItem itup (hashBinsearch page itup.hashkey)

section Search

variable {page : HashPage Tid}

theorem binsearchLoop_eq (ordered : page.Ordered) (low : 1 ≤ lower)
    (first : lower ≤ (below IndexTuple.hashkey hashValue page.items).length + 1)
    (last : (below IndexTuple.hashkey hashValue page.items).length + 1 ≤ upper)
    (inside : upper ≤ page.items.length + 1) :
    binsearchLoop page hashValue lower upper = (below IndexTuple.hashkey hashValue page.items).length + 1 := by
  fun_induction binsearchLoop page hashValue lower upper with
  | case1 lower upper more off missing =>
    have : off - 1 < page.items.length := by omega
    rw [HashPage.item, getElem?_eq_none_iff] at missing
    omega
  | case2 lower upper more off itup found less ih =>
    have place := (Sorted.lt_iff ordered hashValue found).mp less
    exact ih (by omega) (by omega) last inside
  | case3 lower upper more off itup found notLess ih =>
    have place := (not_congr (Sorted.lt_iff ordered hashValue found)).mp notLess
    exact ih low first (by omega) (by omega)
  | case4 lower upper done => omega

theorem hashBinsearch_eq (ordered : page.Ordered) (hashValue : Nat) :
    hashBinsearch page hashValue = (below IndexTuple.hashkey hashValue page.items).length + 1 := by
  have length := Sorted.length ordered hashValue
  refine binsearchLoop_eq ordered (Nat.le_refl _) (by omega) ?_ (Nat.le_refl _)
  unfold HashPage.maxOffsetNumber
  omega

theorem binsearchLastLoop_eq (ordered : page.Ordered)
    (first : lower ≤ (below IndexTuple.hashkey hashValue page.items).length +
      (equal IndexTuple.hashkey hashValue page.items).length)
    (last : (below IndexTuple.hashkey hashValue page.items).length +
      (equal IndexTuple.hashkey hashValue page.items).length ≤ upper) (inside : upper ≤ page.items.length) :
    binsearchLastLoop page hashValue lower upper = (below IndexTuple.hashkey hashValue page.items).length +
      (equal IndexTuple.hashkey hashValue page.items).length := by
  fun_induction binsearchLastLoop page hashValue lower upper with
  | case1 lower upper more off missing =>
    have : off - 1 < page.items.length := by omega
    rw [HashPage.item, getElem?_eq_none_iff] at missing
    omega
  | case2 lower upper more off itup found greater ih =>
    have place := (not_congr (Sorted.le_iff ordered hashValue found)).mp (Nat.not_le_of_gt greater)
    exact ih first (by omega) (by omega)
  | case3 lower upper more off itup found notGreater ih =>
    have place := (Sorted.le_iff ordered hashValue found).mp (Nat.le_of_not_gt notGreater)
    exact ih (by omega) last inside
  | case4 lower upper done => omega

theorem hashBinsearchLast_eq (ordered : page.Ordered) (hashValue : Nat) :
    hashBinsearchLast page hashValue = (below IndexTuple.hashkey hashValue page.items).length +
      (equal IndexTuple.hashkey hashValue page.items).length :=
  binsearchLastLoop_eq ordered (Nat.zero_le _) (Sorted.length ordered hashValue) (Nat.le_refl _)

theorem hashPgaddtup_ordered (ordered : page.Ordered) (itup : IndexTuple Tid) : (hashPgaddtup page itup).Ordered := by
  unfold hashPgaddtup HashPage.addItem
  rw [hashBinsearch_eq ordered, Nat.add_sub_cancel]
  exact Sorted.insert ordered itup

theorem hashPgaddtup_perm (page : HashPage Tid) (itup : IndexTuple Tid) :
    (hashPgaddtup page itup).items.Perm (itup :: page.items) := by
  have perm := @perm_middle _ itup (page.items.take (hashBinsearch page itup.hashkey - 1))
    (page.items.drop (hashBinsearch page itup.hashkey - 1))
  rwa [take_append_drop] at perm

end Search

end BlockchainPG.Access.Hash
