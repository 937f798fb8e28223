import BlockchainPG.Storage.BufPage

/-! Index pages keep the layout, and the items are those of a list. -/

namespace BlockchainPG.Storage

open Lib List

/-- An index page: every line pointer is normal, and every item has an aligned size. -/
structure IndexPage (page : Page) : Prop where
  layout : Layout (fun _ => True) page
  normal : ∀ itemId ∈ page.lines, itemId.flags = .normal ∧ itemId.len % 8 = 0

def indexItem (bytes : Nat → UInt8) (itemId : ItemIdData) : List UInt8 := contents bytes itemId.off itemId.len

def Page.indexItems (page : Page) : List (List UInt8) := page.lines.map (indexItem page.bytes)

/-- Deletions from a list by position, counted from 1, up to the first position that
is not there. -/
def eraseItems (items : List α) : List Nat → List α × Bool
  | [] => (items, true)
  | offnum :: rest =>
    if offnum = 0 ∨ offnum > items.length then (items, false) else eraseItems (items.eraseIdx (offnum - 1)) rest

/-- The walk over positions from `offnum` on that leaves out those that come next in `itemnos`. -/
def keepWalk : Nat → List α → List Nat → List α × List Nat
  | _, [], itemnos => ([], itemnos)
  | offnum, item :: rest, itemnos =>
    if itemnos.head? = some offnum then keepWalk (offnum + 1) rest itemnos.tail
    else (item :: (keepWalk (offnum + 1) rest itemnos).1, (keepWalk (offnum + 1) rest itemnos).2)

theorem eraseItems_append (done : (eraseItems items first).2 = true) :
    eraseItems items (first ++ second) = eraseItems (eraseItems items first).1 second := by
  induction first generalizing items with
  | nil => rfl
  | cons offnum rest ih =>
    grind [eraseItems]

theorem eraseItems_bounds (done : (eraseItems items itemnos).2 = true) : ∀ n ∈ itemnos, 0 < n ∧ n ≤ items.length := by
  induction itemnos generalizing items with
  | nil => exact nofun
  | cons offnum rest ih =>
    grind [eraseItems]

theorem keepWalk_erase (leading : List α) (finished : (keepWalk (leading.length + 1) items itemnos).2 = []) :
    eraseItems (leading ++ items) itemnos.reverse =
      (leading ++ (keepWalk (leading.length + 1) items itemnos).1, true) := by
  induction items generalizing leading itemnos with
  | nil =>
    obtain rfl : itemnos = [] := finished
    rfl
  | cons item rest ih =>
    grind [keepWalk, head?_eq_some_iff, eraseItems, reverse_cons, eraseItems_append]

theorem keepWalk_finished_iff (items : List α) (itemnos : List Nat) (start : Nat) :
    (keepWalk (start + 1) items itemnos).2 = [] ↔
      itemnos.Pairwise (· < ·) ∧ ∀ n ∈ itemnos, start < n ∧ n ≤ start + items.length := by
  induction items generalizing itemnos start with
  | nil =>
    rw [keepWalk]
    constructor
    · rintro rfl
      simp
    · rintro ⟨-, bounds⟩
      refine eq_nil_iff_forall_not_mem.mpr fun n mem => ?_
      grind
  | cons item rest ih =>
    rw [keepWalk]
    split
    · grind [head?_eq_some_iff, pairwise_cons]
    · next kept =>
      rw [ih]
      refine and_congr_right fun order => ⟨fun bounds n mem => ?_, fun bounds n mem => ?_⟩
      · grind
      · have inside := bounds n mem
        rw [length_cons] at inside
        refine ⟨?_, by omega⟩
        cases itemnos with
        | nil => cases mem
        | cons first others =>
          grind [mem_cons_self, pairwise_cons]

theorem keepWalk_map (f : α → β) (start : Nat) (items : List α) (itemnos : List Nat) :
    keepWalk start (items.map f) itemnos =
      ((keepWalk start items itemnos).1.map f, (keepWalk start items itemnos).2) := by
  induction items generalizing start itemnos with
  | nil => rfl
  | cons item rest ih =>
    grind [keepWalk]

theorem keepWalk_sublist (start : Nat) (items : List α) (itemnos : List Nat) :
    (keepWalk start items itemnos).1.Sublist items := by
  induction items generalizing start itemnos with
  | nil => exact List.Sublist.refl _
  | cons item rest ih =>
    grind [keepWalk]

theorem pageInit_indexPage (aligned : specialSize % 8 = 0) (room : specialSize + sizeOfPageHeaderData < pageSize) :
    IndexPage (pageInit specialSize) :=
  ⟨pageInit_layout aligned room, nofun⟩

theorem IndexPage.placed (index : IndexPage page) (placed : Placed page page' item n needshuffle) (pos : 0 < n)
    (limit : n ≤ page.maxOffsetNumber + 1) (grows : n = page.maxOffsetNumber + 1 ∨ needshuffle = true)
    (aligned : item.length % 8 = 0) : IndexPage page' ∧
      page'.indexItems = page.indexItems.take (n - 1) ++ item :: page.indexItems.drop (n - 1) := by
  obtain ⟨rest, perm, sublist⟩ := placed.perm pos limit
  refine ⟨⟨index.layout.placed placed pos limit, fun itemId mem => ?_⟩, ?_⟩
  · rcases mem_cons.mp (perm.subset mem) with rfl | old
    · exact ⟨rfl, aligned⟩
    · exact index.normal itemId (sublist.subset old)
  · have old : page.lines.map (indexItem page'.bytes) = page.indexItems := map_congr_left fun itemId mem =>
        placed.contents_old (Or.inr (index.layout.inside itemId mem trivial).1)
    rw [Page.indexItems, placed.lines, if_pos grows, map_append, map_cons, map_take, map_drop, old]
    exact congrArg (fun new => _ ++ new :: _) placed.contents_new

theorem Layout.count_le (layout : Layout stored page) : page.maxOffsetNumber + 1 ≤ maxOffset := by
  have lower := layout.lower
  grind [lower_le, upper_le, special_le, sizeOfPageHeaderData, sizeOfItemIdData, pageSize, maxOffset]

theorem IndexPage.addItem (index : IndexPage page) (small : item.length + 7 < 2 ^ 31) (aligned : item.length % 8 = 0)
    (pos : 0 < n) (limit : n ≤ page.maxOffsetNumber + 1) :
    ∃ page' m, pageAddItem page item n false false = (page', .ok m) ∧ IndexPage page' ∧ (m = 0 ∧ page' = page ∨
        m = n ∧ page'.indexItems = page.indexItems.take (n - 1) ++ item :: page.indexItems.drop (n - 1)) := by
  have count := index.layout.count_le
  have selected : selectOffset page n false = (page, some (n, decide (n < page.maxOffsetNumber + 1))) := by
    grind [selectOffset]
  have grows : n = page.maxOffsetNumber + 1 ∨ decide (n < page.maxOffsetNumber + 1) = true := by
    rw [decide_eq_true_eq]
    omega
  unfold pageAddItem
  rw [index.layout.sound]
  simp only [Bool.false_eq_true, ↓reduceIte, selected, Bool.false_and]
  rw [if_neg (by omega)]
  rcases placeItem_spec index.layout small pos limit (fun less => Nat.lt_succ_iff.mp (of_decide_eq_true less)) with
    full | ⟨same, placed⟩
  · grind
  · grind [placed]

/-- A line pointer after the deletion of an item of `size` bytes at `offset`. -/
def shiftItem (offset size : Nat) (itemId : ItemIdData) : ItemIdData :=
  if itemId.off ≤ offset then { itemId with off := itemId.off + size } else itemId

theorem shiftItem_len (offset size : Nat) (itemId : ItemIdData) :
    (shiftItem offset size itemId).len = itemId.len ∧ (shiftItem offset size itemId).flags = itemId.flags := by
  unfold shiftItem
  split <;> exact ⟨rfl, rfl⟩

theorem shiftItem_cases {offset size : Nat} {itemId : ItemIdData} (aligned : itemId.len % 8 = 0)
    (apart : offset + size ≤ itemId.off ∨ itemId.off + maxAlign itemId.len ≤ offset) :
    (itemId.off + itemId.len ≤ offset ∧ (shiftItem offset size itemId).off = itemId.off + size) ∨
      (offset + size ≤ itemId.off ∧ (shiftItem offset size itemId).off = itemId.off ∧
        (offset < itemId.off ∨ size = 0)) := by
  rw [maxAlign_of_aligned aligned] at apart
  have place : (shiftItem offset size itemId).off = if itemId.off ≤ offset then itemId.off + size else itemId.off := by
    unfold shiftItem
    split <;> rfl
  rw [place]
  split <;> omega

theorem shiftItem_contents {offset size : Nat} (bytes : Nat → UInt8) {itemId : ItemIdData}
    (aligned : itemId.len % 8 = 0)
    (low : upper ≤ itemId.off) (offset_le : upper ≤ offset)
    (apart : offset + size ≤ itemId.off ∨ itemId.off + maxAlign itemId.len ≤ offset) :
    indexItem (memmove bytes (upper + size) upper (offset - upper)) (shiftItem offset size itemId) =
      indexItem bytes itemId := by
  rw [indexItem, indexItem, (shiftItem_len ..).1]
  refine contents_congr fun i inside => ?_
  rcases shiftItem_cases aligned apart with ⟨before, same⟩ | ⟨after, same, -⟩
  · have moved : memmove bytes (upper + size) upper (offset - upper) (upper + size + (itemId.off + i - upper)) =
        bytes (upper + (itemId.off + i - upper)) := memmove_inside bytes upper (by omega)
    rw [same]
    rwa [show upper + size + (itemId.off + i - upper) = itemId.off + size + i by omega,
      show upper + (itemId.off + i - upper) = itemId.off + i by omega] at moved
  · rw [same]
    exact memmove_outside _ _ (by omega)

theorem slots_memmove_down (linp : Nat → α) (inside : k < n) :
    slots (memmove linp k (k + 1) (n - 1 - k)) (n - 1) = (slots linp n).eraseIdx k := by
  rw [← slots_removeAt inside]
  grind [slots_congr, removeAt_of_lt, memmove, removeAt_of_ge]

/-- What `PageIndexTupleDelete` does to the line pointers and the bytes. -/
structure Deleted (page page' : Page) (k : Nat) : Prop where
  lower : page'.pdLower = sizeOfPageHeaderData + sizeOfItemIdData * page'.maxOffsetNumber
  lower_le : page'.pdLower ≤ page'.pdUpper
  upper : page'.pdUpper = page.pdUpper + (page.linp k).len
  special : page'.pdSpecial = page.pdSpecial
  lines : page'.lines = (page.lines.eraseIdx k).map (shiftItem (page.linp k).off (page.linp k).len)
  bytes : page'.bytes = memmove page.bytes (page.pdUpper + (page.linp k).len) page.pdUpper
    ((page.linp k).off - page.pdUpper)

theorem IndexPage.own (index : IndexPage page) (inside : k < page.maxOffsetNumber) :
    page.pdUpper ≤ (page.linp k).off ∧ (page.linp k).off + (page.linp k).len ≤ page.pdSpecial ∧
      (page.linp k).off % 8 = 0 ∧ (page.linp k).len % 8 = 0 := by
  have own : page.linp k ∈ page.lines := mem_slots.mpr ⟨k, inside, rfl⟩
  obtain ⟨low, high, offAligned⟩ := index.layout.inside _ own trivial
  obtain ⟨-, sizeAligned⟩ := index.normal _ own
  grind [maxAlign_of_aligned]

theorem IndexPage.tupleDelete_spec (index : IndexPage page) (pos : 0 < n) (inside : n ≤ page.maxOffsetNumber) :
    ∃ page', pageIndexTupleDelete page n = (page', none) ∧ Deleted page page' (n - 1) := by
  have layout := index.layout
  have lower := layout.lower
  have lower_le := layout.lower_le
  obtain ⟨low, high, offAligned, sizeAligned⟩ := index.own (show n - 1 < page.maxOffsetNumber by omega)
  unfold pageIndexTupleDelete
  rw [layout.sound]
  simp only [Bool.false_eq_true, ↓reduceIte]
  rw [if_neg (by omega), if_neg (by rw [maxAlign_of_aligned offAligned, maxAlign_of_aligned sizeAligned]; omega)]
  have less : page.pdLower - sizeOfItemIdData =
      sizeOfPageHeaderData + sizeOfItemIdData * (page.maxOffsetNumber - 1) := by
    unfold sizeOfPageHeaderData sizeOfItemIdData at lower ⊢
    omega
  have count {page' : Page} (same : page'.pdLower = page.pdLower - sizeOfItemIdData) :
      page'.maxOffsetNumber = page.maxOffsetNumber - 1 := maxOffsetNumber_of_lower (same.trans less)
  refine ⟨_, rfl, ?_, ?_, rfl, rfl, ?_, ?_⟩
  · grind
  · simp only
    omega
  · refine (congrArg (slots _) (count rfl)).trans ?_
    rw [Page.lines, ← slots_memmove_down page.linp (by omega), slots_map]
    grind [slots_congr, shiftItem]
  · grind [memmove_outside]

theorem IndexPage.tupleDelete (index : IndexPage page) (pos : 0 < n) (inside : n ≤ page.maxOffsetNumber) :
    ∃ page', pageIndexTupleDelete page n = (page', none) ∧ IndexPage page' ∧
      page'.indexItems = page.indexItems.eraseIdx (n - 1) := by
  obtain ⟨page', same, deleted⟩ := index.tupleDelete_spec pos inside
  have layout := index.layout
  have upper := deleted.upper
  have upperAligned := layout.upperAligned
  obtain ⟨low, high, offAligned, sizeAligned⟩ := index.own (show n - 1 < page.maxOffsetNumber by omega)
  have perm : page.lines.Perm (page.linp (n - 1) :: page.lines.eraseIdx (n - 1)) := by
    have below : n - 1 < page.lines.length := by
      rw [lines_length]
      omega
    have element : page.lines[n - 1] = page.linp (n - 1) := slots_getElem ..
    rw [← element]
    exact (getElem_cons_eraseIdx_perm below).symm
  obtain ⟨away, order⟩ := pairwise_cons.mp
    ((perm.pairwise_iff fun apart one other => (apart other one).symm).mp layout.apart)
  have others : ∀ itemId ∈ page.lines.eraseIdx (n - 1), page.pdUpper ≤ itemId.off ∧
      itemId.off + itemId.len ≤ page.pdSpecial ∧ itemId.off % 8 = 0 ∧ itemId.len % 8 = 0 ∧
        ((page.linp (n - 1)).off + (page.linp (n - 1)).len ≤ itemId.off ∨
          itemId.off + maxAlign itemId.len ≤ (page.linp (n - 1)).off) := by
    intro itemId mem
    have inLines := mem_of_mem_eraseIdx mem
    obtain ⟨low', high', aligned'⟩ := layout.inside _ inLines trivial
    obtain ⟨-, size'⟩ := index.normal _ inLines
    have apart' := away itemId mem trivial trivial
    rw [Apart, maxAlign_of_aligned sizeAligned] at apart'
    rw [maxAlign_of_aligned size'] at high'
    exact ⟨low', high', aligned', size', apart'⟩
  refine ⟨page', same, ⟨layout.rebuild deleted.lower deleted.lower_le (by omega) (by omega) deleted.special ?_ ?_,
    ?_⟩, ?_⟩
  · rw [deleted.lines]
    intro itemId mem _
    obtain ⟨old, inOthers, rfl⟩ := mem_map.mp mem
    obtain ⟨low', high', aligned', size', apart'⟩ := others old inOthers
    rw [(shiftItem_len ..).1, maxAlign_of_aligned size']
    rcases shiftItem_cases size' apart' with ⟨before, place⟩ | ⟨after, place, -⟩ <;> rw [place] <;> omega
  · rw [deleted.lines, pairwise_map]
    refine order.imp_of_mem fun first second apart _ _ => ?_
    obtain ⟨-, -, -, size, apart'⟩ := others _ first
    obtain ⟨-, -, -, size', apart''⟩ := others _ second
    have apart := apart trivial trivial
    unfold Apart at apart ⊢
    rw [(shiftItem_len ..).1, (shiftItem_len ..).1]
    rw [maxAlign_of_aligned size, maxAlign_of_aligned size'] at apart ⊢
    rcases shiftItem_cases size apart' with ⟨before, place⟩ | ⟨after, place, -⟩ <;>
      rcases shiftItem_cases size' apart'' with ⟨before', place'⟩ | ⟨after', place', -⟩ <;>
        rw [place, place'] <;> omega
  · rw [deleted.lines]
    intro itemId mem
    obtain ⟨old, inOthers, rfl⟩ := mem_map.mp mem
    rw [(shiftItem_len ..).1, (shiftItem_len ..).2]
    exact index.normal old (mem_of_mem_eraseIdx inOthers)
  · rw [Page.indexItems, deleted.lines, map_map, Page.indexItems, eraseIdx_map]
    refine map_congr_left fun itemId mem => ?_
    obtain ⟨low', -, -, size', apart'⟩ := others itemId mem
    rw [Function.comp_apply, deleted.bytes]
    exact shiftItem_contents page.bytes size' low' low apart'

theorem IndexPage.deleteAll (index : IndexPage page) (itemnos : List Nat) :
    ∃ page' error, Storage.deleteAll page itemnos = (page', error) ∧ IndexPage page' ∧
      page'.indexItems = (eraseItems page.indexItems itemnos).1 ∧
      (error = none ↔ (eraseItems page.indexItems itemnos).2 = true) := by
  induction itemnos generalizing page with
  | nil => exact ⟨page, none, rfl, index, rfl, Iff.intro (fun _ => rfl) fun _ => rfl⟩
  | cons offnum rest ih =>
    have count : page.indexItems.length = page.maxOffsetNumber := by rw [Page.indexItems, length_map, lines_length]
    rw [Storage.deleteAll, eraseItems, count]
    by_cases invalid : offnum = 0 ∨ offnum > page.maxOffsetNumber
    · grind [pageIndexTupleDelete]
    · obtain ⟨page', same, index', items⟩ := index.tupleDelete (show 0 < offnum by omega) (by omega)
      rw [same, if_neg invalid, ← items]
      exact ih index'

theorem deleteAll_one (page : Page) (offnum : Nat) :
    Storage.deleteAll page [offnum] = pageIndexTupleDelete page offnum := by
  grind [deleteAll]

/-- The entries for the items that are kept, numbered from `nused` on. -/
def numbered : Nat → List ItemIdData → List ItemIdSort
  | _, [] => []
  | nused, lp :: rest => ⟨nused, lp.off, maxAlign lp.len, lp⟩ :: numbered (nused + 1) rest

theorem numbered_olditemid (nused : Nat) (kept : List ItemIdData) :
    (numbered nused kept).map ItemIdSort.olditemid = kept := by
  induction kept generalizing nused with
  | nil => rfl
  | cons lp rest ih => rw [numbered, map_cons, ih]

theorem numbered_offsetindex (nused : Nat) (kept : List ItemIdData) :
    (numbered nused kept).map ItemIdSort.offsetindex = range' nused kept.length := by
  induction kept generalizing nused with
  | nil => rfl
  | cons lp rest ih => rw [numbered, map_cons, ih, length_cons, range'_succ]

theorem numbered_extent (mem : item ∈ numbered nused kept) :
    item.itemoff = item.olditemid.off ∧ item.alignedlen = maxAlign item.olditemid.len := by
  induction kept generalizing nused with
  | nil => cases mem
  | cons lp rest ih =>
    rcases mem_cons.mp mem with rfl | later
    · exact ⟨rfl, rfl⟩
    · exact ih later

theorem numbered_mem (mem : item ∈ numbered nused kept) : item.olditemid ∈ kept := by
  grind [numbered_olditemid]

theorem IndexPage.keptItems_eq (index : IndexPage page) (itemnos : List Nat) (nused : Nat)
    (rest : start + m = page.maxOffsetNumber) : keptItems page (range' (start + 1) m) itemnos nused =
      .ok (numbered nused (keepWalk (start + 1) (page.lines.drop start) itemnos).1,
        (keepWalk (start + 1) (page.lines.drop start) itemnos).2) := by
  induction m generalizing start itemnos nused with
  | zero =>
    rw [drop_of_length_le (by rw [lines_length]; omega)]
    rfl
  | succ m ih =>
    have inside : start < page.lines.length := by
      rw [lines_length]
      omega
    obtain ⟨low, high, aligned, -⟩ := index.own (show start < page.maxOffsetNumber by omega)
    have element : page.lines[start] = page.linp start := slots_getElem ..
    rw [range'_succ, drop_eq_getElem_cons inside, element, keptItems, keepWalk, Nat.add_sub_cancel,
      if_neg (by rw [maxAlign_of_aligned aligned]; omega)]
    split
    · exact ih itemnos.tail nused (by omega)
    · rw [ih itemnos (nused + 1) (by omega)]
      rfl

theorem IndexPage.compacted (index : IndexPage page) (qsort : Qsort) (sublist : kept.Sublist page.lines) :
    ((numbered 0 kept).map ItemIdSort.alignedlen).sum ≤ page.pdSpecial - page.pdLower ∧
    ∃ page', { (compactify (fun item _ => item.olditemid) (qsort.sort (numbered 0 kept)) page.pdSpecial page).2 with
          pdLower := sizeOfPageHeaderData + (numbered 0 kept).length * sizeOfItemIdData
          pdUpper := (compactify (fun item _ => item.olditemid) (qsort.sort (numbered 0 kept)) page.pdSpecial
            page).1 } =
        page' ∧ IndexPage page' ∧ page'.indexItems = kept.map (indexItem page.bytes) := by
  have layout := index.layout
  have lower := layout.lower
  have lower_le := layout.lower_le
  have upper_le := layout.upper_le
  have perm := qsort.perm (numbered 0 kept)
  have inside : ∀ item ∈ numbered 0 kept, page.pdUpper ≤ item.itemoff ∧
      item.itemoff + item.alignedlen ≤ page.pdSpecial ∧ item.alignedlen % 8 = 0 := by
    intro item mem
    obtain ⟨start, length⟩ := numbered_extent mem
    obtain ⟨low, high, -⟩ := layout.inside _ (sublist.subset (numbered_mem mem)) trivial
    rw [start, length]
    exact ⟨low, high, (maxAlign_spec _).2.2⟩
  have apart : (numbered 0 kept).Pairwise fun first second => first.itemoff + first.alignedlen ≤ second.itemoff ∨
      second.itemoff + second.alignedlen ≤ first.itemoff := by
    have lines := layout.apart.sublist sublist
    rw [← numbered_olditemid 0 kept, pairwise_map] at lines
    refine lines.imp_of_mem fun first second apart => ?_
    rw [(numbered_extent first).1, (numbered_extent first).2, (numbered_extent second).1, (numbered_extent second).2]
    exact apart trivial trivial
  obtain ⟨descending, total⟩ := qsort.descending upper_le apart fun item mem =>
    ⟨(inside item mem).1, (inside item mem).2.1⟩
  refine ⟨by omega, _, rfl, ?_⟩
  obtain ⟨moved, bottom, place, same, sum, bottomAligned, placed, -, order, -⟩ := compactify_spec
    (fun item _ => item.olditemid) ItemIdSort.olditemid page (fun _ _ _ _ => rfl)
    ((perm.map ItemIdSort.offsetindex).nodup_iff.mpr (by rw [numbered_offsetindex]; exact nodup_range' ..))
    descending layout.aligned fun item mem => (inside item (perm.subset mem)).2.2
  rw [(perm.map ItemIdSort.alignedlen).sum_nat] at sum
  rw [same]
  have length : (numbered 0 kept).length = kept.length := by
    rw [← length_map ItemIdSort.olditemid, numbered_olditemid]
  have fewer : kept.length ≤ page.maxOffsetNumber := by
    rw [← lines_length]
    exact sublist.length_le
  have count : Page.maxOffsetNumber { page with
      linp := moved.linp, bytes := moved.bytes, pdUpper := bottom
      pdLower := sizeOfPageHeaderData + (numbered 0 kept).length * sizeOfItemIdData } = kept.length :=
    maxOffsetNumber_of_lower (by rw [length, Nat.mul_comm])
  have lines : slots moved.linp kept.length =
      (numbered 0 kept).map fun item => { item.olditemid with off := place item } := by
    rw [slots, range_eq_range', ← numbered_offsetindex, map_map]
    exact map_congr_left fun item mem => (placed item (perm.symm.subset mem)).1
  have places : (numbered 0 kept).Pairwise fun first second =>
      place first + first.alignedlen ≤ place second ∨ place second + second.alignedlen ≤ place first :=
    (perm.pairwise_iff Or.symm).mp (order.imp Or.inr)
  refine ⟨⟨layout.rebuild ?_ ?_ (show bottom ≤ _ by omega) bottomAligned rfl ?_ ?_, ?_⟩, ?_⟩
  · rw [count, length, Nat.mul_comm]
  · unfold sizeOfPageHeaderData sizeOfItemIdData at lower ⊢
    simp only
    omega
  · rw [Page.lines, count, lines]
    intro itemId mem _
    obtain ⟨item, inItems, rfl⟩ := mem_map.mp mem
    obtain ⟨-, -, low, high, aligned⟩ := placed item (perm.symm.subset inItems)
    rw [(numbered_extent inItems).2] at high
    exact ⟨low, high, aligned⟩
  · rw [Page.lines, count, lines, pairwise_map]
    refine places.imp_of_mem fun first second apart _ _ => ?_
    rw [(numbered_extent first).2, (numbered_extent second).2] at apart
    exact apart
  · rw [Page.lines, count, lines]
    intro itemId mem
    obtain ⟨item, inItems, rfl⟩ := mem_map.mp mem
    exact index.normal item.olditemid (sublist.subset (numbered_mem inItems))
  · rw [Page.indexItems, Page.lines, count, lines, map_map]
    conv => rhs; rw [← numbered_olditemid 0 kept, map_map]
    refine map_congr_left fun item mem => ?_
    obtain ⟨-, bytes, -⟩ := placed item (perm.symm.subset mem)
    rw [(numbered_extent mem).1, (numbered_extent mem).2] at bytes
    exact contents_le bytes (maxAlign_spec _).1

/-- `PageIndexMultiDelete` deletes from the list from last to first, as it does for every
ascending list for which that is possible, or reports an error. -/
theorem IndexPage.multiDelete (index : IndexPage page) (qsort : Qsort) (itemnos : List Nat) :
    ∃ page' error, pageIndexMultiDelete qsort page itemnos = (page', error) ∧ IndexPage page' ∧
      (error = none → eraseItems page.indexItems itemnos.reverse = (page'.indexItems, true)) ∧
      (error ≠ none → page'.indexItems =
        if itemnos.length ≤ 2 then (eraseItems page.indexItems itemnos.reverse).1 else page.indexItems) ∧
      (itemnos.Pairwise (· < ·) → (eraseItems page.indexItems itemnos.reverse).2 = true → error = none) := by
  by_cases short : itemnos.length ≤ 2
  · obtain ⟨page', error, same, index', items, done⟩ := index.deleteAll itemnos.reverse
    grind [pageIndexMultiDelete]
  · have scan := index.keptItems_eq itemnos 0 (show 0 + page.maxOffsetNumber = _ from Nat.zero_add _)
    have finished := keepWalk_finished_iff page.lines itemnos 0
    rw [drop_zero] at scan
    simp only [Nat.zero_add, lines_length] at scan finished
    rw [pageIndexMultiDelete, if_neg short, index.layout.sound_special, if_neg Bool.false_ne_true, scan]
    dsimp only
    by_cases done : (keepWalk 1 page.lines itemnos).2 = []
    · obtain ⟨fits, page', same, index', items⟩ := index.compacted qsort (keepWalk_sublist 1 page.lines itemnos)
      rw [if_neg (fun rest => rest done), if_neg (by omega)]
      refine ⟨page', none, by rw [same], index', fun _ => ?_, fun failed => absurd rfl failed, fun _ _ => rfl⟩
      have walked := keepWalk_map (indexItem page.bytes) 1 page.lines itemnos
      have erased := @keepWalk_erase _ page.indexItems itemnos [] (by rw [length_nil, Page.indexItems, walked, done])
      grind [Page.indexItems]
    · rw [if_pos done]
      refine ⟨page, _, rfl, index, nofun, fun _ => by rw [if_neg short], fun ascending erased => ?_⟩
      refine absurd (finished.mpr ⟨ascending, fun n mem => ?_⟩) done
      have bounds := eraseItems_bounds erased n (mem_reverse.mpr mem)
      rwa [Page.indexItems, length_map, lines_length] at bounds

end BlockchainPG.Storage
