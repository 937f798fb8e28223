import BlockchainPG.Storage.BufPage

/-! Heap pages keep the layout, and every item stays at its line pointer. -/

namespace BlockchainPG.Storage

open Lib List Function

/-- A heap page: only normal line pointers have storage, and there are not too many. -/
structure HeapPage (page : Page) : Prop where
  layout : Layout (fun itemId => itemId.len ≠ 0) page
  flags : ∀ itemId ∈ page.lines, itemId.flags = .normal ∨ itemId.len = 0
  few : page.maxOffsetNumber ≤ maxHeapTuplesPerPage

/-- The item of a line pointer; unused, dead and redirected ones have none. -/
def heapItem (bytes : Nat → UInt8) (itemId : ItemIdData) : Option (List UInt8) :=
  if itemId.flags = .normal then some (contents bytes itemId.off itemId.len) else none

def Page.heapItems (page : Page) : List (Option (List UInt8)) := page.lines.map (heapItem page.bytes)

def placeHeapItem (items : List (Option (List UInt8))) (offsetNumber : Nat) (item : List UInt8) :
    Option (List (Option (List UInt8))) :=
  if offsetNumber = items.length + 1 then some (items ++ [some item])
  else if 0 < offsetNumber ∧ items[offsetNumber - 1]? = some none then some (items.set (offsetNumber - 1) (some item))
  else none

theorem pageInit_heapPage (aligned : specialSize % 8 = 0) (room : specialSize + sizeOfPageHeaderData < pageSize) :
    HeapPage (pageInit specialSize) :=
  ⟨pageInit_layout aligned room, nofun, Nat.zero_le _⟩

theorem selectOffset_heap {overwrite : Bool} (page : Page) (style : offsetNumber = 0 ∨ overwrite = true) :
    ∃ hint, ({ page with hasFreeLines := hint } : Page) = (selectOffset page offsetNumber overwrite).1 ∧
      ∀ n shuffle, (selectOffset page offsetNumber overwrite).2 = some (n, shuffle) → shuffle = false ∧ 0 < n ∧
        (n ≤ page.maxOffsetNumber → (page.linp (n - 1)).isUsed = false) := by
  unfold selectOffset
  split
  · next valid =>
    obtain rfl : overwrite = true := style.resolve_left valid.1
    simp only [↓reduceIte]
    split
    · exact ⟨page.hasFreeLines, rfl, nofun⟩
    · next free =>
      refine ⟨page.hasFreeLines, rfl, fun n shuffle same => ?_⟩
      simp only [Option.some.injEq, Prod.mk.injEq] at same
      obtain ⟨rfl, rfl⟩ := same
      refine ⟨rfl, by omega, fun inside => ?_⟩
      simp only [not_and, Bool.or_eq_true, not_or] at free
      simpa using (free (by omega)).1
  · split
    · simp only
      generalize index : page.lines.findIdx (fun itemId => !itemId.isUsed && !itemId.hasStorage) = free
      by_cases late : free + 1 ≥ page.maxOffsetNumber + 1
      · simp only [if_pos late, Option.some.injEq, Prod.mk.injEq]
        refine ⟨false, rfl, fun n shuffle same => ?_⟩
        obtain ⟨rfl, rfl⟩ := same
        exact ⟨rfl, Nat.succ_pos _, fun inside => absurd inside (by omega)⟩
      · simp only [if_neg late, Option.some.injEq, Prod.mk.injEq]
        refine ⟨page.hasFreeLines, rfl, fun n shuffle same => ?_⟩
        obtain ⟨rfl, rfl⟩ := same
        have below : page.lines.findIdx (fun itemId => !itemId.isUsed && !itemId.hasStorage) < page.lines.length := by
          rw [lines_length]
          omega
        have unused := findIdx_getElem (w := below)
        simp only [Page.lines, slots_getElem, Bool.and_eq_true, Bool.not_eq_true'] at unused
        refine ⟨rfl, Nat.succ_pos _, fun _ => ?_⟩
        rw [Nat.add_sub_cancel, ← index]
        exact unused.1
    · refine ⟨page.hasFreeLines, rfl, fun n shuffle same => ?_⟩
      simp only [Option.some.injEq, Prod.mk.injEq] at same
      obtain ⟨rfl, rfl⟩ := same
      exact ⟨rfl, Nat.succ_pos _, fun inside => absurd inside (by omega)⟩

theorem HeapPage.hint (heap : HeapPage page) (hint : Bool) : HeapPage { page with hasFreeLines := hint } :=
  ⟨⟨heap.layout.lower, heap.layout.lower_le, heap.layout.upper_le, heap.layout.special_le, heap.layout.aligned,
    heap.layout.upperAligned, heap.layout.inside, heap.layout.apart⟩, heap.flags, heap.few⟩

theorem heapItems_getElem? (page : Page) (i : Nat) : page.heapItems[i]? =
    if i < page.maxOffsetNumber then some (heapItem page.bytes (page.linp i)) else none := by
  rw [Page.heapItems, getElem?_map, Page.lines, slots_getElem?]
  split <;> rfl

theorem HeapPage.map_old (heap : HeapPage page) (placed : Placed page page' item n needshuffle) :
    page.lines.map (heapItem page'.bytes) = page.heapItems := by
  refine map_congr_left fun itemId mem => ?_
  have outside : itemId.len = 0 ∨ page.pdUpper ≤ itemId.off := by
    by_cases empty : itemId.len = 0
    · exact Or.inl empty
    · exact Or.inr (heap.layout.inside itemId mem empty).1
  rw [heapItem, placed.contents_old outside, heapItem]

theorem HeapPage.placed (heap : HeapPage page) (placed : Placed page page' item n false) (pos : 0 < n)
    (limit : n ≤ page.maxOffsetNumber + 1) (early : n ≤ maxHeapTuplesPerPage)
    (free : n ≤ page.maxOffsetNumber → (page.linp (n - 1)).isUsed = false) :
    HeapPage page' ∧ placeHeapItem page.heapItems n item = some page'.heapItems := by
  obtain ⟨rest, perm, sublist⟩ := placed.perm pos limit
  refine ⟨⟨heap.layout.placed placed pos limit, fun itemId mem => ?_, ?_⟩, ?_⟩
  · rcases mem_cons.mp (perm.subset mem) with rfl | old
    · exact Or.inl rfl
    · exact heap.flags itemId (sublist.subset old)
  · have few := heap.few
    grind [lines_length, placed.lines]
  · have count : page.heapItems.length = page.maxOffsetNumber := by rw [Page.heapItems, length_map, lines_length]
    have new : heapItem page'.bytes (newItemId page item) = some item := by
      rw [heapItem, placed.contents_new]
      rfl
    have items : page'.heapItems = page'.lines.map (heapItem page'.bytes) := rfl
    rw [placeHeapItem, count, items, placed.lines]
    grind [drop_of_length_le, map_old, heapItems_getElem?, map_set, heapItem, ItemIdData.isUsed]

/-- `PageAddItem` puts an item behind a line pointer that stands for nothing, or
leaves the items alone. -/
theorem HeapPage.addItem {overwrite : Bool} (heap : HeapPage page) (small : item.length + 7 < 2 ^ 31)
    (style : offsetNumber = 0 ∨ overwrite = true) :
    ∃ page' n, pageAddItem page item offsetNumber overwrite true = (page', .ok n) ∧ HeapPage page' ∧
      (n = 0 ∧ page'.heapItems = page.heapItems ∨
        n ≠ 0 ∧ placeHeapItem page.heapItems n item = some page'.heapItems) := by
  obtain ⟨hint, selected, free⟩ := selectOffset_heap page style
  unfold pageAddItem
  rw [heap.layout.sound]
  simp only [Bool.false_eq_true, ↓reduceIte]
  generalize selectOffset page offsetNumber overwrite = choice at selected free ⊢
  obtain ⟨page1, choice⟩ := choice
  obtain rfl : { page with hasFreeLines := hint } = page1 := selected
  have heap1 := heap.hint hint
  rcases choice with _ | ⟨n, shuffle⟩
  · exact ⟨_, 0, rfl, heap1, Or.inl ⟨rfl, rfl⟩⟩
  · obtain ⟨rfl, pos, unused⟩ := free n shuffle rfl
    simp only
    split
    · exact ⟨_, 0, rfl, heap1, Or.inl ⟨rfl, rfl⟩⟩
    · next limit =>
      split
      · exact ⟨_, 0, rfl, heap1, Or.inl ⟨rfl, rfl⟩⟩
      · next early =>
        rcases placeItem_spec heap1.layout small pos (Nat.not_lt.mp limit)
            (show false = true → _ from nofun) with
          full | ⟨same, placed⟩
        · rw [full]
          exact ⟨_, 0, rfl, heap1, Or.inl ⟨rfl, rfl⟩⟩
        · obtain ⟨heap', items⟩ := heap1.placed placed pos (Nat.not_lt.mp limit) (by simpa using early) unused
          exact ⟨_, n, by rw [same], heap', Or.inr ⟨by omega, items⟩⟩

theorem mem_storageItems : item ∈ storageItems page ↔ ∃ i < page.maxOffsetNumber, (page.linp i).len ≠ 0 ∧
    item = ⟨i, (page.linp i).off, maxAlign (page.linp i).len, page.linp i⟩ := by
  grind [storageItems, ItemIdData.hasStorage]

theorem storageItems_nodup (page : Page) : ((storageItems page).map ItemIdSort.offsetindex).Nodup := by
  grind [storageItems, nodup_range]

theorem HeapPage.storage_apart (heap : HeapPage page) :
    (storageItems page).Pairwise fun first second => first.itemoff + first.alignedlen ≤ second.itemoff ∨
      second.itemoff + second.alignedlen ≤ first.itemoff := by
  refine pairwise_map.mpr ?_
  refine (List.Nodup.filter _ nodup_range).pairwise_of_forall_ne fun i first j second ne => ?_
  simp only [mem_filter, mem_range, ItemIdData.hasStorage, ne_eq, decide_not, Bool.not_eq_true',
    decide_eq_false_iff_not] at first second
  exact heap.layout.apart_of_ne first.1 second.1 ne first.2 second.2

theorem HeapPage.moved (heap : HeapPage page) {linp : Nat → ItemIdData} {bytes : Nat → UInt8} {place : Nat → Nat}
    (bottom_le : page.pdUpper ≤ bottom) (bottomTop : bottom ≤ page.pdSpecial) (bottomAligned : bottom % 8 = 0)
    (moved : ∀ i < page.maxOffsetNumber, (page.linp i).len ≠ 0 → linp i = { page.linp i with off := place i } ∧
      contents bytes (place i) (page.linp i).len = contents page.bytes (page.linp i).off (page.linp i).len ∧
      bottom ≤ place i ∧ place i + maxAlign (page.linp i).len ≤ page.pdSpecial ∧ place i % 8 = 0)
    (kept : ∀ i < page.maxOffsetNumber, (page.linp i).len = 0 →
      (linp i).flags = (page.linp i).flags ∧ (linp i).len = 0)
    (apart : ∀ i < page.maxOffsetNumber, ∀ j < page.maxOffsetNumber, i ≠ j → (page.linp i).len ≠ 0 →
      (page.linp j).len ≠ 0 → place i + maxAlign (page.linp i).len ≤ place j ∨
        place j + maxAlign (page.linp j).len ≤ place i) :
    HeapPage { page with linp := linp, bytes := bytes, pdUpper := bottom } ∧
      Page.heapItems { page with linp := linp, bytes := bytes, pdUpper := bottom } = page.heapItems := by
  have shape : ∀ i < page.maxOffsetNumber, (linp i).flags = (page.linp i).flags ∧ (linp i).len = (page.linp i).len := by
    grind
  refine ⟨⟨heap.layout.rebuild heap.layout.lower (Nat.le_trans heap.layout.lower_le bottom_le) bottomTop
    bottomAligned rfl
    ?_ ?_, ?_, heap.few⟩, ?_⟩
  · intro itemId mem isStored
    obtain ⟨i, below, rfl⟩ := mem_slots.mp mem
    grind [Page.maxOffsetNumber]
  · refine pairwise_map.mpr (nodup_range.pairwise_of_forall_ne fun i first j second ne => ?_)
    grind [Page.maxOffsetNumber, Apart]
  · intro itemId mem
    obtain ⟨i, below, rfl⟩ := mem_slots.mp mem
    have below : i < page.maxOffsetNumber := below
    simp only [(shape i below).1, (shape i below).2]
    exact heap.flags _ (mem_slots.mpr ⟨i, below, rfl⟩)
  · refine ext_getElem? fun i => ?_
    grind [heapItems_getElem?, Page.maxOffsetNumber, heapItem, contents_zero]

theorem HeapPage.repairStorage (heap : HeapPage page) (qsort : Qsort) :
    ∃ page', Storage.repairStorage qsort page = (page', none) ∧ HeapPage page' ∧
      page'.heapItems = page.heapItems := by
  have layout := heap.layout
  have lower_le := layout.lower_le
  have upper_le := layout.upper_le
  unfold Storage.repairStorage
  split
  · next none =>
    have empty : ∀ i < page.maxOffsetNumber, (page.linp i).len = 0 := by
      intro i below
      by_contra stored
      have mem : page.linp i ∈ page.lines := mem_slots.mpr ⟨i, below, rfl⟩
      grind [flags, ItemIdData.isUsed, ItemIdData.hasStorage]
    obtain ⟨heap', items⟩ := @HeapPage.moved page page.pdSpecial heap page.linp page.bytes (fun _ => 0) upper_le
      (Nat.le_refl _) layout.aligned (fun i below stored => absurd (empty i below) stored)
        (fun _ _ empty => ⟨rfl, empty⟩)
      (fun i below _ _ _ stored => absurd (empty i below) stored)
    exact ⟨_, rfl, heap', items⟩
  · have inside : ∀ item ∈ storageItems page, page.pdUpper ≤ item.itemoff ∧
        item.itemoff + item.alignedlen ≤ page.pdSpecial ∧ 0 < item.alignedlen ∧ item.alignedlen % 8 = 0 := by
      intro item mem
      obtain ⟨i, below, stored, rfl⟩ := mem_storageItems.mp mem
      obtain ⟨low, high, -⟩ := layout.inside _ (mem_slots.mpr ⟨i, below, rfl⟩) stored
      grind [maxAlign_spec]
    have checked : (storageItems page).find?
        (fun item => item.itemoff < page.pdUpper || item.itemoff ≥ page.pdSpecial) = none := by
      grind
    have perm := qsort.perm (storageItems page)
    obtain ⟨descending, total⟩ := qsort.descending upper_le heap.storage_apart fun item mem =>
      ⟨(inside item mem).1, (inside item mem).2.1⟩
    obtain ⟨page', bottom, place, same, sum, bottomAligned, moved, kept, order, -⟩ := compactify_spec
      (fun item linp => linp item.offsetindex) (fun item => page.linp item.offsetindex) page
      (fun item _ linp same => same)
      ((perm.map ItemIdSort.offsetindex).nodup_iff.mpr (storageItems_nodup page)) descending layout.aligned
      fun item mem => (inside item (perm.subset mem)).2.2.2
    rw [(perm.map ItemIdSort.alignedlen).sum_nat] at sum
    simp only [checked]
    rw [if_neg (by omega), same]
    have entry : ∀ i < page.maxOffsetNumber, (page.linp i).len ≠ 0 →
        ⟨i, (page.linp i).off, maxAlign (page.linp i).len, page.linp i⟩ ∈ qsort.sort (storageItems page) :=
      fun i below stored => perm.symm.subset (mem_storageItems.mpr ⟨i, below, stored, rfl⟩)
    have places : Std.Symm fun first second : ItemIdSort =>
        place first + first.alignedlen ≤ place second ∨ place second + second.alignedlen ≤ place first :=
      ⟨fun _ _ apart => apart.symm⟩
    have either : (qsort.sort (storageItems page)).Pairwise fun first second =>
        place first + first.alignedlen ≤ place second ∨ place second + second.alignedlen ≤ place first :=
      order.imp Or.inr
    have result := @HeapPage.moved page bottom heap page'.linp page'.bytes
      (fun i => place ⟨i, (page.linp i).off, maxAlign (page.linp i).len, page.linp i⟩) (by omega) (by omega)
        bottomAligned
      (fun i below stored => ?_) (fun i below empty => ?_) (fun i first j second ne isStored isStored' => ?_)
    · exact ⟨_, rfl, result.1, result.2⟩
    · grind [contents_le, maxAlign_spec]
    · grind
    · grind [List.Pairwise.forall]

theorem HeapPage.repairFragmentation (heap : HeapPage page) (qsort : Qsort) :
    ∃ page', pageRepairFragmentation qsort page = (page', none) ∧ HeapPage page' ∧
      page'.heapItems = page.heapItems := by
  have layout := heap.layout
  have unchanged : ∀ i < page.maxOffsetNumber, (page.linp i).len ≠ 0 → (page.linp i).isUsed = true := by
    intro i below stored
    rcases heap.flags _ (mem_slots.mpr ⟨i, below, rfl⟩) with normal | empty
    · simp [ItemIdData.isUsed, normal]
    · exact absurd empty stored
  have cleared := @HeapPage.moved page page.pdUpper heap
    (fun i => if i < page.maxOffsetNumber ∧ (page.linp i).isUsed = false then .setUnused else page.linp i) page.bytes
    (fun i => (page.linp i).off) (Nat.le_refl _) layout.upper_le layout.upperAligned (fun i below stored => ?_)
    (fun i below empty => ?_) (fun i first j second ne isStored isStored' => ?_)
  · obtain ⟨page', same, heap', items⟩ := cleared.1.repairStorage qsort
    unfold pageRepairFragmentation
    rw [layout.sound_special]
    simp only [Bool.false_eq_true, ↓reduceIte, same]
    exact ⟨_, rfl, heap'.hint _, items.trans cleared.2⟩
  · obtain ⟨low, high, aligned⟩ := layout.inside _ (mem_slots.mpr ⟨i, below, rfl⟩) stored
    rw [if_neg (by simp [unchanged i below stored])]
    exact ⟨rfl, rfl, low, high, aligned⟩
  · split
    · next unused =>
      simp only [ItemIdData.isUsed, ne_eq, decide_not, Bool.not_eq_false', decide_eq_true_eq] at unused
      rw [unused.2]
      exact ⟨rfl, rfl⟩
    · exact ⟨rfl, empty⟩
  · exact layout.apart_of_ne first second ne isStored isStored'

/-- What the heap makes of a line pointer. -/
inductive LineChange where
  | setUnused
  | setRedirect (link : Nat)
  | setDead

def LineChange.itemId : LineChange → ItemIdData
  | .setUnused => .setUnused
  | .setRedirect link => ⟨link, .redirect, 0⟩
  | .setDead => ⟨0, .dead, 0⟩

theorem HeapPage.changeLine (heap : HeapPage page) (inside : i < page.maxOffsetNumber) (change : LineChange) :
    HeapPage { page with linp := update page.linp i change.itemId } ∧
      Page.heapItems { page with linp := update page.linp i change.itemId } = page.heapItems.set i none := by
  have bare : change.itemId.len = 0 ∧ heapItem page.bytes change.itemId = none := by
    cases change <;> exact ⟨rfl, rfl⟩
  have layout := heap.layout
  have lines : Page.lines { page with linp := update page.linp i change.itemId } = page.lines.set i change.itemId :=
    slots_update ..
  have perm : ∃ rest, (page.lines.set i change.itemId).Perm (change.itemId :: rest) ∧ rest.Sublist page.lines := by
    have below : i < page.lines.length := by rwa [lines_length]
    refine ⟨page.lines.take i ++ page.lines.drop (i + 1), ?_, ?_⟩
    · rw [set_eq_take_append_cons_drop, if_pos below]
      exact perm_middle
    · rw [← eraseIdx_eq_take_drop_succ]
      exact eraseIdx_sublist ..
  obtain ⟨rest, perm, sublist⟩ := perm
  refine ⟨⟨layout.rebuild layout.lower layout.lower_le layout.upper_le layout.upperAligned rfl ?_ ?_, ?_, heap.few⟩, ?_⟩
  · rw [lines]
    intro itemId mem stored
    rcases mem_cons.mp (perm.subset mem) with rfl | old
    · exact absurd bare.1 stored
    · exact layout.inside itemId (sublist.subset old) stored
  · rw [lines]
    refine (perm.pairwise_iff fun apart isStored isStored' => (apart isStored' isStored).symm).mpr
      (pairwise_cons.mpr ⟨fun _ _ stored => absurd bare.1 stored, layout.apart.sublist sublist⟩)
  · rw [lines]
    intro itemId mem
    rcases mem_cons.mp (perm.subset mem) with rfl | old
    · exact Or.inr bare.1
    · exact heap.flags itemId (sublist.subset old)
  · rw [Page.heapItems, lines, map_set, bare.2]
    rfl

end BlockchainPG.Storage
