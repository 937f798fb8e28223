import BlockchainPG.Storage.PageRuns

/-! What `PageGetHeapFreeSpace` promises over the whole life of a heap page. -/

namespace BlockchainPG.Storage

open Lib Function List

def pageGetFreeSpace (page : Page) : Nat :=
  let space : Int := page.pdUpper - page.pdLower
  if space < sizeOfItemIdData then 0 else (space - sizeOfItemIdData).toNat

def pageGetHeapFreeSpace (page : Page) : Nat :=
  let space := pageGetFreeSpace page
  if space > 0 ∧ page.maxOffsetNumber ≥ maxHeapTuplesPerPage then
    if page.hasFreeLines && page.lines.any fun itemId => !itemId.isUsed then space else 0
  else space

/-- A line pointer that `PageAddItem` would use again. -/
def ItemIdData.recyclable (itemId : ItemIdData) : Bool := !itemId.isUsed && !itemId.hasStorage

/-- The offset number that `PageAddItem` selects. -/
def Page.nextOffset (page : Page) : Nat :=
  if page.hasFreeLines then page.lines.findIdx ItemIdData.recyclable + 1 else page.maxOffsetNumber + 1

theorem selectOffset_next (page : Page) :
    ∃ hint, selectOffset page 0 false = ({ page with hasFreeLines := hint }, some (page.nextOffset, false)) := by
  simp only [selectOffset, ne_eq, not_true_eq_false, false_and, ↓reduceIte, Page.nextOffset]
  split
  · split
    · exact ⟨false, rfl⟩
    · exact ⟨page.hasFreeLines, rfl⟩
  · exact ⟨page.hasFreeLines, rfl⟩

theorem nextOffset_le (page : Page) : page.nextOffset ≤ page.maxOffsetNumber + 1 := by
  have length : page.lines.findIdx ItemIdData.recyclable ≤ page.lines.length := findIdx_le_length
  rw [lines_length] at length
  unfold Page.nextOffset
  split <;> omega

theorem pageAddItem_next (sound : page.corrupted = false)
    (room : page.pdLower + sizeOfItemIdData + maxAlign item.length ≤ page.pdUpper) :
    (pageAddItem page item 0 false true).2 =
      .ok (if page.nextOffset ≤ maxHeapTuplesPerPage then page.nextOffset else 0) := by
  obtain ⟨hint, selected⟩ := selectOffset_next page
  have limit : ¬page.nextOffset > ({ page with hasFreeLines := hint } : Page).maxOffsetNumber + 1 :=
    not_lt.mpr (nextOffset_le page)
  have top : page.pdUpper ≤ pageSize := by grind [Page.corrupted]
  have small : maxAlign item.length < 2 ^ 31 := by
    unfold pageSize at top
    omega
  have upper : upperFor { page with hasFreeLines := hint } item = _ := upperFor_eq small top
  have fits : (placeItem { page with hasFreeLines := hint } item page.nextOffset false).2 = page.nextOffset := by
    simp only [placeItem, upper]
    split <;> grind
  simp only [pageAddItem, sound, selected, if_neg limit, fits, Bool.false_eq_true, ↓reduceIte, Bool.true_and]
  grind

theorem HeapPage.nextOffset_le (heap : HeapPage page) (promised : 0 < pageGetHeapFreeSpace page) :
    page.nextOffset ≤ maxHeapTuplesPerPage := by
  have few := heap.few
  have limit := Storage.nextOffset_le page
  by_cases full : page.maxOffsetNumber < maxHeapTuplesPerPage
  · omega
  · -- the promise rests on an unused line pointer, and `PageAddItem` finds it
    have free : page.hasFreeLines = true ∧ ∃ itemId ∈ page.lines, itemId.isUsed = false := by
      grind [pageGetHeapFreeSpace]
    obtain ⟨hinted, itemId, mem, unused⟩ := free
    have recyclable : itemId.recyclable = true := by
      grind [ItemIdData.recyclable, ItemIdData.isUsed, ItemIdData.hasStorage, flags]
    have found := findIdx_lt_length_of_exists ⟨itemId, mem, recyclable⟩
    rw [lines_length] at found
    rw [Page.nextOffset, if_pos hinted]
    omega

/-- A page whose line pointers are all taken and three of them given back, only one of them for new items. -/
def fullPage : List HeapEvent :=
  replicate 291 (.addItem [0] 0 false) ++
    [.changeLine 7 .setDead, .changeLine 8 .setUnused, .changeLine 9 (.setRedirect 10), .repairFragmentation]

end BlockchainPG.Storage
