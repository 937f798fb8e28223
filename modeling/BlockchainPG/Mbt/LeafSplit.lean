import BlockchainPG.Mbt.Shape

/-! The stores made when an entry goes into a leaf. -/

namespace BlockchainPG.Mbt

open Lib Function

namespace Heap

variable {h : Heap} {leaf sibling : Addr} {insert : Nat} (key : Int) (data : CString) (tid : ItemPointerData)

theorem leafRows_touches {h h' : Heap} {rows : Addr → Prop} {links : Links Link} {count : Addr → Nat}
    {keys : Addr → Nat → Int} {tids : Addr → Nat → Cell} {data : Addr → Nat → CString} {cell : Cell → ItemPointerData}
    (same : h' = { h with links := links, count := count, key := keys, tids := tids, data := data, cell := cell })
    (counts : ∀ a, ¬rows a → count a = h.count a) (kept : ∀ a, ¬rows a → keys a = h.key a) :
    Touches rows (fun _ => False) (({ h with links := links } : Heap).withPayload h') h' := by
  subst same
  exact ⟨rfl, rfl, rfl, rfl, rfl, counts, kept, fun _ _ => rfl, fun _ _ => rfl, fun _ _ => rfl⟩

/-- The two halves of a split leaf. -/
structure LeafHalves (h h' : Heap) (leaf sibling first second : Addr) (n cut : Nat) (key : Nat → Int) :
    Prop where
  touches : Touches (fun a => a = leaf ∨ a = sibling) (fun _ => False) (h.withPayload h') h'
  firstCount : h'.count first = cut
  secondCount : h'.count second = n + 1 - cut
  firstKeys : ∀ i < cut, h'.key first i = key i
  secondKeys : ∀ i < n + 1 - cut, h'.key second i = key (cut + i)

/-- Where the address cells of a split leaf end up: the new entry has a cell of
the new leaf, the others keep theirs. -/
structure CellHalves (h h' : Heap) (leaf sibling first second : Addr) (n cut insert : Nat) (fresh : Nat)
    (tid : ItemPointerData) : Prop where
  cell : h'.cell = update h.cell (h.tids sibling fresh) tid
  first : ∀ i < cut, h'.tids first i = insertAt (h.tids leaf) insert (h.tids sibling fresh) i
  second : ∀ i < n + 1 - cut, h'.tids second i = insertAt (h.tids leaf) insert (h.tids sibling fresh) (cut + i)
  others : ∀ a ≠ leaf, a ≠ sibling → h'.tids a = h.tids a

theorem copyGap_origin {row other : Nat → Cell} {cell : Cell}
    (same : cell = if i < stop then if i < hole then row (start + i) else if i = hole then none.getD (other i)
      else row (start + i - 1) else other i) : cell = other i ∨ ∃ j, cell = row j := by
  grind

theorem ite_origin [Decidable condition] (row : Nat → Cell) :
    ∃ k, (if condition then row i else row j) = row k := by
  split
  · exact ⟨i, rfl⟩
  · exact ⟨j, rfl⟩

theorem leafSplitLeft_eq (ne : sibling ≠ leaf) (pos : 0 < h.count leaf)
    (early : insert < (h.count leaf + 1) / 2) : let cut := (h.count leaf + 1) / 2
    let rest := h.count leaf + 1 - cut
    ∃ keys strings cells, (∀ i < cut, keys i = insertAt (h.key leaf) insert key i) ∧
      (∀ i < cut, cells i = insertAt (h.tids leaf) insert (h.tids sibling insert) i) ∧
      (∀ i, cells i = h.tids sibling i ∨ ∃ j, cells i = h.tids leaf j) ∧
      h.leafSplitLeft leaf sibling key data tid insert =
        { h with
          links := h.links.addBetween (.node sibling) (h.links.prev (.node leaf)) (.node leaf)
          count := update (update h.count sibling cut) leaf rest
          key := update (update h.key sibling keys) leaf
            (moveDown (h.key leaf) (cut - 1) rest)
          tids := update (update h.tids sibling cells) leaf
            (moveDown (h.tids leaf) (cut - 1) rest)
          data := update h.data sibling (copyRow (h.data leaf) strings 0 (cut - 1) rest)
          cell := update h.cell (h.tids sibling insert) tid } := by
  intro cut rest
  have notSibling := Ne.symm ne
  obtain ⟨stop, keySlots⟩ := copyGap_apply (h.key leaf) (some key) insert (h.key sibling) (Nat.zero_le (cut - 1))
  obtain ⟨cellStop, cellSlots⟩ := copyGap_apply (h.tids leaf) none insert (h.tids sibling) (Nat.zero_le (cut - 1))
  rw [show cut - 1 - 0 + 1 = cut by omega] at stop keySlots cellStop cellSlots
  rw [stop] at keySlots
  rw [cellStop] at cellSlots
  have reached : ∀ i < cut, i ≠ insert ∨ insert < cut - 1 →
      i < if insert < cut - 1 - 0 then cut - 1 + 1 - 0 else cut - 1 - 0 := by
    intro i less other
    split <;> omega
  unfold leafSplitLeft
  extract_lets n split linked keys strings cells j copied written filled rest' shifted
  have cellRow : ∀ i < cut, cells.2 i = insertAt (h.tids leaf) insert (h.tids sibling insert) i := by
    grind [insertAt]
  have cellHole : cells.2 insert = h.tids sibling insert := by
    rw [cellRow insert early, insertAt_self]
  have origin : ∀ i, cells.2 i = h.tids sibling i ∨ ∃ j, cells.2 i = h.tids leaf j := fun i =>
    copyGap_origin (cellSlots i)
  have restSame : rest' = rest := by omega
  rw [restSame]
  by_cases last : insert = cut - 1
  · have met : j = insert := by
      grind
    refine ⟨update keys.2 insert key, update strings.2 insert data, cells.2, ?_, cellRow, origin, ?_⟩
    · grind [insertAt_self, insertAt_of_lt]
    · have same : filled = ((((copied.setKey sibling insert key).setData sibling insert data).writeTid
          sibling insert tid).setCount sibling cut) := by
        grind
      simp [shifted, same, setCount, writeTid, setData, setKey, copied, linked, notSibling, cellHole,
        restSame, n, split, cut]
  · have met : j = cut := by
      refine stop.trans ?_
      rw [if_pos (by omega)]
      omega
    refine ⟨keys.2, strings.2, cells.2, ?_, cellRow, origin, ?_⟩
    · grind [insertAt]
    · have same : filled = (copied.writeTid sibling insert tid).setCount sibling cut := by
        grind
      simp [shifted, same, setCount, writeTid, copied, linked, notSibling, cellHole, restSame, n, split, cut]

theorem copyGap_upper (row other : Nat → α) (value : α) (low : cut ≤ insert) (high : insert ≤ n) :
    ∀ i < n + 1 - cut, update (copyGap row none n (insert - cut) (n - cut + 1) cut 0 other).2
      (insert - cut) value i = insertAt row insert value (cut + i) := by
  grind [copyGap_apply, insertAt_self, insertAt_of_lt, insertAt_of_gt]

theorem leafSplitRight_eq (sibling : Addr) (late : (h.count leaf + 1) / 2 ≤ insert)
    (inside : insert ≤ h.count leaf) : let cut := (h.count leaf + 1) / 2
    let rest := h.count leaf + 1 - cut
    let fresh := h.tids sibling (insert - cut)
    ∃ keys strings cells, (∀ i < rest, keys i = insertAt (h.key leaf) insert key (cut + i)) ∧
      (∀ i < rest, strings i = insertAt (h.data leaf) insert data (cut + i)) ∧
      (∀ i < rest, cells i = insertAt (h.tids leaf) insert fresh (cut + i)) ∧
      (∀ i, cells i = h.tids sibling i ∨ ∃ j, cells i = h.tids leaf j) ∧
      h.leafSplitRight leaf sibling key data tid insert =
        { h with
          links := h.links.add (.node sibling) (.node leaf)
          count := update (update h.count sibling rest) leaf cut
          key := update h.key sibling keys
          tids := update h.tids sibling cells
          data := update h.data sibling strings
          cell := update h.cell fresh tid } := by
  intro cut rest fresh
  have stop := (copyGap_apply (h.key leaf) none (insert - cut) (h.key sibling)
    (show cut ≤ h.count leaf by omega)).1
  have cellSlots := (copyGap_apply (h.tids leaf) none (insert - cut) (h.tids sibling)
    (show cut ≤ h.count leaf by omega)).2
  unfold leafSplitRight
  extract_lets n split hole linked keys strings cells j copied counted written
  have own : cells.2 hole = fresh := by
    refine (cellSlots (insert - cut)).trans ?_
    simp [fresh]
  refine ⟨update keys.2 hole key, update strings.2 hole data, cells.2,
    copyGap_upper _ _ key late inside, copyGap_upper _ _ data late inside, ?_, fun i =>
      copyGap_origin (cellSlots i), ?_⟩
  · intro i less
    rw [← copyGap_upper (h.tids leaf) (h.tids sibling) fresh late inside i less]
    grind
  · have same : counted = copied.setCount sibling rest := by
      have stopped : j = if hole < n - split then n + 1 - split else n - split := stop
      by_cases met : hole < n - split
      · grind
      · rw [if_neg met] at stopped
        have full : j = hole := by omega
        grind [check_true]
    simp [written, same, setCount, writeTid, setData, setKey, copied, linked, own, split, n, cut]

theorem leafSimpleInsert_eq (inside : insert ≤ h.count leaf) : ∃ keys strings cells,
      (∀ i < h.count leaf + 1, keys i = insertAt (h.key leaf) insert key i) ∧
      (∀ i < h.count leaf + 1, strings i = insertAt (h.data leaf) insert data i) ∧
      (∀ i < h.count leaf + 1, cells i = insertAt (h.tids leaf) insert (h.tids leaf insert) i) ∧
      (∀ i, ∃ j, cells i = h.tids leaf j) ∧ h.leafSimpleInsert leaf key data tid insert = { h with
          count := update h.count leaf (h.count leaf + 1)
          key := update h.key leaf keys
          tids := update h.tids leaf cells
          data := update h.data leaf strings
          cell := update h.cell (h.tids leaf insert) tid } := by
  have row : ∀ {α : Type} (row : Nat → α) (value : α), ∀ i < h.count leaf + 1,
      update (shiftRight row insert (h.count leaf)) insert value i = insertAt row insert value i := by
    grind [shiftRight_apply, insertAt_of_lt, insertAt_self, insertAt_of_gt]
  have own : shiftRight (h.tids leaf) insert (h.count leaf) insert = h.tids leaf insert := by
    rw [shiftRight_apply inside, if_neg (by omega)]
  refine ⟨update (shiftRight (h.key leaf) insert (h.count leaf)) insert key,
    update (shiftRight (h.data leaf) insert (h.count leaf)) insert data,
    shiftRight (h.tids leaf) insert (h.count leaf), row _ _, row _ _, ?_, fun i => ?_, ?_⟩
  · grind
  · rw [shiftRight_apply inside]
    exact ite_origin (h.tids leaf)
  · simp [leafSimpleInsert, setCount, writeTid, setData, setKey, own]

theorem leafSplitLeft_halves (ne : sibling ≠ leaf) (pos : 0 < h.count leaf)
    (early : insert < (h.count leaf + 1) / 2) : let cut := (h.count leaf + 1) / 2
    let h' := h.leafSplitLeft leaf sibling key data tid insert
    LeafHalves
        { h with links := h.links.addBetween (.node sibling) (h.links.prev (.node leaf)) (.node leaf) }
        h' leaf sibling sibling leaf (h.count leaf) cut (insertAt (h.key leaf) insert key) ∧
      CellHalves h h' leaf sibling sibling leaf (h.count leaf) cut insert insert tid := by
  intro cut h'
  obtain ⟨keys, strings, cells, keyRow, cellRow, -, same⟩ := leafSplitLeft_eq key data tid ne pos early
  have keySame : h'.key = update (update h.key sibling keys) leaf
      (moveDown (h.key leaf) (cut - 1) (h.count leaf + 1 - cut)) := congrArg Heap.key same
  have cellSame : h'.tids = update (update h.tids sibling cells) leaf
      (moveDown (h.tids leaf) (cut - 1) (h.count leaf + 1 - cut)) := congrArg Heap.tids same
  have countSame : h'.count = update (update h.count sibling cut) leaf
      (h.count leaf + 1 - cut) := congrArg Heap.count same
  refine ⟨⟨?_, ?_, ?_, ?_, ?_⟩, ⟨congrArg Heap.cell same, ?_, ?_, ?_⟩⟩
  · grind [leafRows_touches]
  · rw [countSame]
    simp [ne, cut]
  · rw [countSame]
    simp [cut]
  · intro i less
    rw [keySame, update_of_ne ne, update_self, keyRow i less]
  · intro i less
    rw [keySame, update_self, moveDown_apply, if_pos less, insertAt_of_gt (by omega)]
    congr 1
    omega
  · intro i less
    rw [cellSame, update_of_ne ne, update_self, cellRow i less]
  · intro i less
    rw [cellSame, update_self, moveDown_apply, if_pos less, insertAt_of_gt (by omega)]
    congr 1
    omega
  · intro a notLeaf notSibling
    rw [cellSame, update_of_ne notLeaf, update_of_ne notSibling]

theorem leafSplitRight_halves (ne : sibling ≠ leaf) (late : (h.count leaf + 1) / 2 ≤ insert)
    (inside : insert ≤ h.count leaf) : let cut := (h.count leaf + 1) / 2
    let h' := h.leafSplitRight leaf sibling key data tid insert
    LeafHalves { h with links := h.links.add (.node sibling) (.node leaf) }
        h' leaf sibling leaf sibling (h.count leaf) cut (insertAt (h.key leaf) insert key) ∧
      CellHalves h h' leaf sibling leaf sibling (h.count leaf) cut insert (insert - cut) tid := by
  intro cut h'
  obtain ⟨keys, strings, cells, keyRow, -, cellRow, -, same⟩ := leafSplitRight_eq key data tid sibling late inside
  have keySame : h'.key = update h.key sibling keys := congrArg Heap.key same
  have cellSame : h'.tids = update h.tids sibling cells := congrArg Heap.tids same
  have countSame : h'.count = update (update h.count sibling (h.count leaf + 1 - cut)) leaf
      cut := congrArg Heap.count same
  have notSibling := Ne.symm ne
  refine ⟨⟨?_, ?_, ?_, ?_, ?_⟩, ⟨congrArg Heap.cell same, ?_, ?_, ?_⟩⟩
  · grind [leafRows_touches]
  · rw [countSame]
    simp [cut]
  · rw [countSame]
    simp [ne, cut]
  · intro i less
    rw [keySame, update_of_ne notSibling, insertAt_of_lt (by omega)]
  · intro i less
    rw [keySame, update_self, keyRow i less]
  · intro i less
    rw [cellSame, update_of_ne notSibling, insertAt_of_lt (by omega)]
  · intro i less
    rw [cellSame, update_self, cellRow i less]
  · intro a _ other
    rw [cellSame, update_of_ne other]

end Heap

end BlockchainPG.Mbt
