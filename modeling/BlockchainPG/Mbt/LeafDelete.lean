import BlockchainPG.Mbt.InnerShrink
import Mathlib.Data.List.InsertIdx

/-! Deletion of one entry leaves the other entries in the leaves. -/

namespace BlockchainPG.Mbt

open Lib Function List

theorem flatMap_window {α : Type u} {β : Type v} {f g : α → List β} {front run run' back : List α}
    (outside : ∀ a ∈ front ++ back, g a = f a) (same : run'.flatMap g = run.flatMap f) :
    (front ++ run' ++ back).flatMap g = (front ++ run ++ back).flatMap f := by
  have before : front.flatMap g = front.flatMap f :=
    flatMap_congr fun a mem => outside a (mem_append_left back mem)
  have behind : back.flatMap g = back.flatMap f :=
    flatMap_congr fun a mem => outside a (mem_append_right front mem)
  simp only [flatMap_append, before, behind, same]

namespace Heap

variable {h h' : Heap} {leaf : Addr} {rows : Addr → Prop}

/-- The entries of a leaf. -/
def pairs (h : Heap) (leaf : Addr) : List (Int × CString) := slots (h.row leaf) (h.count leaf)

theorem pairs_length (h : Heap) (leaf : Addr) : (h.pairs leaf).length = h.count leaf := slots_length ..

theorem pairs_keys (h : Heap) (leaf : Addr) : (h.pairs leaf).map Prod.fst = slots (h.key leaf) (h.count leaf) :=
  slots_map ..

theorem pairs_congr (count : h'.count a = h.count a) (key : h'.key a = h.key a) (data : h'.data a = h.data a) :
    h'.pairs a = h.pairs a := by
  rw [pairs, pairs, count]
  refine slots_congr fun i _ => ?_
  rw [row, row, key, data]

theorem Rewrites.pairs (rewrites : Rewrites rows h h') (outside : ¬rows a) : h'.pairs a = h.pairs a :=
  pairs_congr (rewrites.touches.count a outside) (rewrites.touches.key a outside) (rewrites.data a outside)

theorem Holds.of_pairs {children : List Addr} (type : h.type leaf = BPLUS_TREE_LEAF) :
    h.Holds 0 leaf children ((h.pairs leaf).map Prod.fst) :=
  ⟨type, (h.pairs_keys leaf).symm⟩

end Heap

section Becoming

variable {t t' : BplusTree} {y : Shape}

theorem RepBut.keys_eq (rep : RepBut skip linked t y)
    (mem : leaf ∈ y.nodes 0) (out : ¬skip leaf) : y.keys leaf = (t.heap.pairs leaf).map Prod.fst := by
  rw [Heap.pairs_keys, (rep.lies 0 leaf mem out).1.2]

theorem RepBut.leafKeys_eq (rep : Rep t y) : y.leafKeys = ((y.nodes 0).flatMap t.heap.pairs).map Prod.fst := by
  rw [map_flatMap]
  exact flatMap_congr fun leaf mem => rep.keys_eq mem id

/-- A well laid out tree of the same dimensions with the given entries. -/
structure Becomes (t t' : BplusTree) (rows : List (Int × CString)) : Prop where
  rep : ∃ y, Rep t' y ∧ (y.nodes 0).flatMap t'.heap.pairs = rows
  order : t'.order = t.order
  entries : t'.entries = t.entries

theorem Becomes.of_store (becomes : Becomes { t with heap := h } t' rows) :
    Becomes t t' rows :=
  ⟨becomes.rep, becomes.order, becomes.entries⟩

/-- A tree without any node. -/
structure Blank (t : BplusTree) : Prop where
  config : BPLUS_MIN_ORDER ≤ t.order ∧ 0 < t.entries
  root : t.root = none
  level : t.level = 0
  rings : Rings t.heap.links fun _ => []
  fault : t.heap.fault = false

theorem LeavesKept.pairs {leaves : List Addr} (kept : LeavesKept leaves t t') (mem : leaf ∈ leaves) :
    t'.heap.pairs leaf = t.heap.pairs leaf := by
  exact Heap.pairs_congr (kept.rows leaf mem).1 (kept.rows leaf mem).2
    (congrFun (congrArg Prod.fst kept.payload) leaf)

theorem Settles.becomes {leaves : List Addr} {keys : List Int} (settles : Settles leaves keys t t') :
    Becomes t t' (leaves.flatMap t.heap.pairs) := by
  obtain ⟨y, rep, nodes, -⟩ := settles.rep
  refine ⟨⟨y, rep, ?_⟩, settles.kept.order, settles.kept.entries⟩
  rw [nodes]
  exact flatMap_congr fun leaf mem => settles.kept.pairs mem

end Becoming

open Heap hiding parent

/-- The layout lists the keys of these entries. One leaf need not hold them yet. -/
structure Expects (t : BplusTree) (y : Shape) (leaf : Addr) (pairs : Addr → List (Int × CString)) : Prop where
  rest : RepBut (· = leaf) y.nodes t y
  mem : leaf ∈ y.nodes 0
  type : t.heap.type leaf = BPLUS_TREE_LEAF
  own : y.keys leaf = (pairs leaf).map Prod.fst
  others : ∀ a ≠ leaf, pairs a = t.heap.pairs a

section Siblings

variable {t : BplusTree} {y : Shape} {leaf : Addr} {pair : Pair Addr Int} {h' : Heap}
  {pairs : Addr → List (Int × CString)}

theorem Expects.keys (expects : Expects t y leaf pairs) (mem : a ∈ y.nodes 0) :
    y.keys a = (pairs a).map Prod.fst := by
  by_cases own : a = leaf
  · rw [own, expects.own]
  · rw [expects.others a own, expects.rest.keys_eq mem own]

theorem Expects.isLeaf (expects : Expects t y leaf pairs) (mem : a ∈ y.nodes 0) :
    t.heap.type a = BPLUS_TREE_LEAF := by
  by_cases own : a = leaf
  · rw [own, expects.type]
  · exact (expects.rest.lies 0 a mem own).1.1

theorem parent_ne (valid : y.Valid) (above : parent ∈ y.nodes 1) (mem : a ∈ y.nodes 0) : parent ≠ a := by
  rintro rfl
  exact valid.apart 0 1 (by omega) _ mem above

theorem kid_ne_root (valid : y.Valid) (above : parent ∈ y.nodes (k + 1)) (kid : a ∈ y.kids parent) : a ≠ y.root := by
  rintro rfl
  exact valid.root_notKid above kid

theorem RepBut.leafSized (rep : RepBut skip linked t y)
    (mem : a ∈ y.nodes 0) (out : ¬skip a) :
    0 < t.heap.count a ∧ t.heap.count a ≤ t.entries ∧ (a ≠ y.root → (t.entries + 1) / 2 ≤ t.heap.count a) := by
  obtain ⟨holds, sized⟩ := rep.lies 0 a mem out
  rw [holds.leafCount]
  exact sized

theorem leaves_window (valid : y.Valid) (apart : y.Apart 0 pair) :
    ∃ front back, y.nodes 0 = front ++ [pair.first, pair.second] ++ back ∧
      (y.merge 0 pair).nodes 0 = front ++ [pair.first] ++ back ∧
      ∀ a ∈ front ++ back, a ∈ y.nodes 0 ∧ a ∉ [pair.first, pair.second] := by
  obtain ⟨front, back, before, after⟩ := (Layout.merge_edit valid apart).window valid
  grind [Layout.Valid.nodup]

theorem Expects.elsewhere {rows : Addr → Prop} {links : Links Link} (expects : Expects t y leaf pairs)
    (half : leaf ∈ [pair.first, pair.second]) (rewrites : Heap.Rewrites rows { t.heap with links := links } h')
    (outside : ∀ a ∈ y.nodes 0, a ∉ [pair.first, pair.second] → ¬rows a) (mem : a ∈ y.nodes 0)
    (other : a ∉ [pair.first, pair.second]) : h'.pairs a = pairs a := by
  rw [expects.others a fun same => other (same ▸ half)]
  exact rewrites.pairs (outside a mem other)

theorem Expects.shift (expects : Expects t y leaf pairs) (half : leaf ∈ [pair.first, pair.second])
    (apart : y.Apart 0 pair) (rewrites : Heap.Rewrites (· ∈ [pair.first, pair.second, pair.parent]) t.heap h')
    (same : h'.pairs pair.first ++ h'.pairs pair.second = pairs pair.first ++ pairs pair.second)
    (sized : ∀ a ∈ [pair.first, pair.second],
      0 < h'.count a ∧ h'.count a ≤ t.entries ∧ (t.entries + 1) / 2 ≤ h'.count a)
    (key : h'.key pair.parent = update (t.heap.key pair.parent) pair.left.length (h'.key pair.second 0))
    (count : h'.count pair.parent = t.heap.count pair.parent)
    (subPtr : h'.subPtr pair.parent = t.heap.subPtr pair.parent) :
    Becomes t { t with heap := h' } ((y.nodes 0).flatMap pairs) := by
  have valid := expects.rest.valid
  have first := apart.first_mem valid
  have second := apart.second_mem valid
  have firstSized := sized pair.first (by simp)
  have secondSized := sized pair.second (by simp)
  have lengths : ∀ a, ((h'.pairs a).map Prod.fst).length = h'.count a := by simp [pairs_length]
  have reparts : Layout.Reparts 0 pair [] [] ((h'.pairs pair.first).map Prod.fst)
      ((h'.pairs pair.second).map Prod.fst) (h'.key pair.second 0) := by
    refine ⟨?_, fun inner => absurd inner (lt_irrefl 0), fun _ => ⟨?_, ?_⟩, fun inner => absurd inner (lt_irrefl 0)⟩
    · rw [Layout.joinKeys, Layout.joinKeys, ← map_append, same, map_append, ← expects.keys first,
        ← expects.keys second, apart.first_keys, apart.second_keys]
    · rw [← length_pos_iff, lengths]
      exact firstSized.1
    · rw [pairs_keys, head?_eq_getElem?, slots_getElem?, if_pos secondSized.1]
  have leafType : ∀ a ∈ y.nodes 0, h'.type a = BPLUS_TREE_LEAF := fun a mem =>
    (congrFun rewrites.touches.type a).trans (expects.isLeaf mem)
  have rep := shift_rep expects.rest half apart reparts rewrites.touches (fun _ => False.elim)
    (Heap.Holds.of_pairs (leafType _ first)) (Heap.Holds.of_pairs (leafType _ second))
    (by simpa [Sized, lengths] using firstSized) (by simpa [Sized, lengths] using secondSized) key count subPtr
  refine ⟨⟨_, rep, ?_⟩, rfl, rfl⟩
  rw [Layout.rotate_nodes valid apart reparts]
  obtain ⟨front, back, window, -, outside⟩ := leaves_window valid apart
  rw [window]
  refine flatMap_window (fun a mem => ?_) (by simpa using same)
  refine expects.elsewhere half rewrites (fun b present other inside => ?_) (outside a mem).1 (outside a mem).2
  simp only [mem_cons, not_mem_nil, or_false, not_or] at inside other
  obtain rfl : b = pair.parent := by tauto
  exact valid.apart 0 1 (by omega) _ present apart.parent_mem

theorem Expects.merge (expects : Expects t y leaf pairs) (half : leaf ∈ [pair.first, pair.second])
    (apart : y.Apart 0 pair)
    (rewrites : Heap.Rewrites (· = pair.first) { t.heap with links := t.heap.links.del (.node pair.second) } h')
    (same : h'.pairs pair.first = pairs pair.first ++ pairs pair.second)
    (sized : 0 < h'.count pair.first ∧ h'.count pair.first ≤ t.entries ∧ (t.entries + 1) / 2 ≤ h'.count pair.first) :
    Becomes t (nonLeafRemove (t.level + 1) { t with heap := h' } pair.parent pair.left.length)
      ((y.nodes 0).flatMap pairs) := by
  have valid := expects.rest.valid
  have first := apart.first_mem valid
  have joined : Layout.joinKeys 0 pair.firstKeys pair.cut pair.secondKeys = (h'.pairs pair.first).map Prod.fst := by
    rw [Layout.joinKeys, same, map_append, ← expects.keys first, ← expects.keys (apart.second_mem valid),
      apart.first_keys, apart.second_keys]
  have losing := merge_losing expects.rest half apart rewrites.touches (fun _ => False.elim)
    (joined ▸ Heap.Holds.of_pairs ((congrFun rewrites.touches.type _).trans (expects.isLeaf first)))
    (by simpa [Sized, joined, pairs_length] using sized)
  have level : (y.merge 0 pair).level < 0 + 1 + (t.level + 1) := by
    rw [expects.rest.level]
    show y.level < _
    omega
  obtain ⟨rep, order, entries⟩ := (nonLeafRemove_spec losing level).becomes
  obtain ⟨front, back, before, after, outside⟩ := leaves_window valid apart
  have kept : ((y.merge 0 pair).nodes 0).flatMap h'.pairs = (y.nodes 0).flatMap pairs := by
    grind [flatMap_window, elsewhere]
  exact ⟨kept ▸ rep, order, entries⟩

end Siblings

/-- The entries of the leaves without the one in slot `remove` of a leaf. -/
def Heap.pairsWithout (h : Heap) (leaf : Addr) (remove : Nat) : Addr → List (Int × CString) :=
  update h.pairs leaf ((h.pairs leaf).eraseIdx remove)

theorem Heap.pairsWithout_self (h : Heap) (leaf : Addr) (remove : Nat) :
    h.pairsWithout leaf remove leaf = (h.pairs leaf).eraseIdx remove :=
  update_self ..

theorem Heap.pairsWithout_of_ne (h : Heap) (remove : Nat) (other : a ≠ leaf) :
    h.pairsWithout leaf remove a = h.pairs a :=
  update_of_ne other ..

/-- The entry in slot `remove` of a leaf is to go. The layout no longer lists
its key, the rows still have it. -/
structure Dropping (t : BplusTree) (y : Shape) (leaf : Addr) (remove : Nat) : Prop where
  expects : Expects t y leaf (t.heap.pairsWithout leaf remove)
  inside : remove < t.heap.count leaf
  most : t.heap.count leaf ≤ t.entries
  half : leaf ≠ y.root → (t.entries + 1) / 2 ≤ t.heap.count leaf

theorem RepBut.dropping (rep : Rep t y) (mem : leaf ∈ y.nodes 0) (inside : remove < t.heap.count leaf) :
    Dropping t (y.setKeys leaf ((y.keys leaf).eraseIdx remove)) leaf remove := by
  obtain ⟨holds, -, most, half⟩ := rep.lies 0 leaf mem id
  have count := holds.leafCount
  obtain ⟨sorted, within⟩ := rep.valid.leaf mem
  have fewer : WithinLeaf (y.lo leaf) ((y.keys leaf).eraseIdx remove) (y.hi leaf) :=
    ⟨sorted.sublist (eraseIdx_sublist ..), fun key own => within key (mem_of_mem_eraseIdx own)⟩
  have rest := (rep.weaken (· = leaf) fun _ => False.elim).setKeys mem rfl fewer
  refine ⟨⟨rest, mem, holds.1, ?_, fun a other => pairsWithout_of_ne _ _ other⟩, inside, ?_, ?_⟩
  · refine (update_self ..).trans ?_
    rw [rep.keys_eq mem id, pairsWithout_self, eraseIdx_map]
  · exact count ▸ most
  · exact fun bound => count ▸ half bound

section Dropping

variable {t : BplusTree} {y : Shape} {leaf sibling parent : Addr} {remove : Nat} {left right : List Addr}

section

variable (dropping : Dropping t y leaf remove)
include dropping

theorem Dropping.removed : let h' := t.heap.leafSimpleRemove leaf remove
    Expects { t with heap := h' } y leaf h'.pairs ∧ h'.pairs = t.heap.pairsWithout leaf remove ∧
      h'.count leaf = t.heap.count leaf - 1 ∧ ∀ a ≠ leaf, h'.count a = t.heap.count a := by
  intro h'
  obtain ⟨rest, mem, type, own, -⟩ := dropping.expects
  obtain ⟨rewrites, count, row⟩ := leafSimpleRemove_spec dropping.inside
  have pairs : h'.pairs = t.heap.pairsWithout leaf remove := by
    funext a
    by_cases same : a = leaf
    · subst same
      rw [pairsWithout_self, Heap.pairs, Heap.pairs, ← slots_removeAt dropping.inside, count]
      exact slots_congr row
    · rw [pairsWithout_of_ne _ _ same]
      exact rewrites.pairs same
  refine ⟨⟨?_, mem, (congrFun rewrites.touches.type leaf).trans type, pairs ▸ own, fun _ _ => rfl⟩, pairs, count,
    fun a other => rewrites.touches.count a other⟩
  exact (rest.withPayload h').touches rewrites.touches (fun _ _ _ => id) (fun _ _ _ _ _ _ => id) id

section

variable (enough : 2 ≤ t.heap.count leaf) (half : leaf ≠ y.root → (t.entries + 1) / 2 ≤ t.heap.count leaf - 1)
include enough half

theorem Dropping.simple_rep : Rep { t with heap := t.heap.leafSimpleRemove leaf remove } y := by
  obtain ⟨expects, -, count, -⟩ := dropping.removed
  have size : (y.keys leaf).length = t.heap.count leaf - 1 := by
    rw [expects.own, length_map, pairs_length, count]
  have most := dropping.most
  refine expects.rest.finish (k := 0) expects.mem ⟨?_, ?_⟩
  · rw [expects.own]
    exact Heap.Holds.of_pairs expects.type
  · exact ⟨by omega, by simp only; omega, fun bound => by have := half bound; simp only; omega⟩

theorem Dropping.simple : Becomes t { t with heap := t.heap.leafSimpleRemove leaf remove }
      ((y.nodes 0).flatMap (t.heap.pairsWithout leaf remove)) :=
  ⟨⟨y, dropping.simple_rep enough half, by simp only [dropping.removed.2.1]⟩, rfl, rfl⟩

end

theorem Dropping.shiftFromLeft (inner : leaf ≠ y.root)
    (above : parent ∈ y.nodes 1) (kids : y.kids parent = left ++ [sibling, leaf] ++ right)
    (plenty : (t.entries + 1) / 2 < t.heap.count sibling) :
    Becomes t { t with heap := t.heap.leafShiftFromLeft leaf sibling parent left.length remove }
      ((y.nodes 0).flatMap (t.heap.pairsWithout leaf remove)) := by
  have rest := dropping.expects.rest
  have apart := siblingPair_apart rest.valid above kids
  have ne : sibling ≠ leaf := apart.ne rest.valid
  have present : sibling ∈ y.nodes 0 := apart.first_mem rest.valid
  have siblingMost := (rest.leafSized present ne).2.1
  obtain ⟨rewrites, ownCount, siblingCount, ownRow, siblingRow, key, count, subPtr⟩ :=
    @leafShiftFromLeft_spec t.heap leaf sibling parent remove left.length ne
      ⟨parent_ne rest.valid above dropping.expects.mem, parent_ne rest.valid above present⟩
  have inside := dropping.inside
  have most := dropping.most
  have half := dropping.half inner
  obtain ⟨m, size⟩ : ∃ m, t.heap.count sibling = m + 1 := ⟨t.heap.count sibling - 1, by omega⟩
  obtain ⟨n, ownSize⟩ : ∃ n, t.heap.count leaf = n + 1 := ⟨t.heap.count leaf - 1, by omega⟩
  have head := congrArg Prod.fst (ownRow 0 (by omega))
  refine dropping.expects.shift (by simp [siblingPair]) apart ?_ ?_ ?_ ?_ count subPtr
  · grind [Heap.Rewrites.weaken, siblingPair]
  · simp only [siblingPair, pairsWithout_self, pairsWithout_of_ne _ _ ne]
    rw [Heap.pairs, Heap.pairs, Heap.pairs, Heap.pairs, siblingRow, siblingCount, ownCount, slots_congr ownRow,
      ← slots_removeAt inside, ownSize, size, slots_insertAt_zero, slots_succ, append_assoc]
    rfl
  · intro a mem
    rcases mem_pair.mp mem with rfl | rfl
    · rw [siblingCount]
      omega
    · rw [ownCount]
      omega
  · exact key.trans (congrArg _ head.symm)

theorem Dropping.mergeToLeft (above : parent ∈ y.nodes 1) (kids : y.kids parent = left ++ [sibling, leaf] ++ right)
    (few : t.heap.count leaf ≤ (t.entries + 1) / 2) (fewer : t.heap.count sibling ≤ (t.entries + 1) / 2) : Becomes t
      (nonLeafRemove (t.level + 1) { t with heap := t.heap.leafMergeInt64ToLeft leaf sibling remove } parent
        left.length)
      ((y.nodes 0).flatMap (t.heap.pairsWithout leaf remove)) := by
  have rest := dropping.expects.rest
  have apart := siblingPair_apart rest.valid above kids
  have ne : sibling ≠ leaf := apart.ne rest.valid
  have present : sibling ∈ y.nodes 0 := apart.first_mem rest.valid
  have siblingHalf := (rest.leafSized present ne).2.2
    (kid_ne_root rest.valid above (by simp [kids]))
  obtain ⟨rewrites, count, row⟩ := leafMergeInt64ToLeft_spec sibling dropping.inside
  have inside := dropping.inside
  have most := dropping.most
  refine dropping.expects.merge (by simp [siblingPair]) apart rewrites ?_ ?_
  · simp only [siblingPair, pairsWithout_self, pairsWithout_of_ne _ _ ne]
    rw [Heap.pairs, Heap.pairs, Heap.pairs, count, slots_congr row, slots_appendAt, slots_removeAt inside]
  · simp only [siblingPair, count]
    omega

end

section

variable (expects : Expects t y leaf t.heap.pairs) (above : parent ∈ y.nodes 1)
    (kids : y.kids parent = left ++ [leaf, sibling] ++ right)
include expects above kids

theorem Expects.shiftFromRight (plenty : (t.entries + 1) / 2 < t.heap.count sibling)
    (low : (t.entries + 1) / 2 ≤ t.heap.count leaf + 1) (high : t.heap.count leaf + 1 ≤ t.entries) :
    Becomes t { t with heap := t.heap.leafShiftFromRight leaf sibling parent left.length }
      ((y.nodes 0).flatMap t.heap.pairs) := by
  have rest := expects.rest
  have apart := siblingPair_apart rest.valid above kids
  have ne : sibling ≠ leaf := Ne.symm (apart.ne rest.valid)
  have present : sibling ∈ y.nodes 0 := apart.second_mem rest.valid
  have siblingMost := (rest.leafSized present ne).2.1
  obtain ⟨rewrites, ownCount, siblingCount, ownRow, siblingRow, key, count, subPtr⟩ :=
    @leafShiftFromRight_spec t.heap leaf sibling parent left.length (by omega) ne
      ⟨parent_ne rest.valid above expects.mem, parent_ne rest.valid above present⟩
  obtain ⟨m, size⟩ : ∃ m, t.heap.count sibling = m + 1 := ⟨t.heap.count sibling - 1, by omega⟩
  have head := congrArg Prod.fst (siblingRow 0 (by omega))
  refine expects.shift (by simp [siblingPair]) apart rewrites ?_ ?_ ?_ count subPtr
  · simp only [siblingPair]
    grind [Heap.pairs, slots_congr, slots_eq_cons, slots_succ, update_of_ne]
  · intro a mem
    rcases mem_pair.mp mem with rfl | rfl
    · rw [ownCount]
      omega
    · rw [siblingCount]
      omega
  · exact key.trans (congrArg _ head.symm)

theorem Expects.mergeFromRight
    (few : t.heap.count leaf < (t.entries + 1) / 2) (fewer : t.heap.count sibling ≤ (t.entries + 1) / 2) : Becomes t
      (nonLeafRemove (t.level + 1) { t with heap := t.heap.leafMergeFromRight leaf sibling } parent left.length)
      ((y.nodes 0).flatMap t.heap.pairs) := by
  have rest := expects.rest
  have apart := siblingPair_apart rest.valid above kids
  have ne : sibling ≠ leaf := Ne.symm (apart.ne rest.valid)
  have present : sibling ∈ y.nodes 0 := apart.second_mem rest.valid
  have siblingHalf := (rest.leafSized present ne).2.2
    (kid_ne_root rest.valid above (by simp [kids]))
  obtain ⟨rewrites, count, row⟩ := leafMergeFromRight_spec t.heap leaf sibling
  refine expects.merge (by simp [siblingPair]) apart rewrites ?_ ?_
  · simp only [siblingPair]
    rw [Heap.pairs, Heap.pairs, Heap.pairs, count, slots_congr row, slots_appendAt]
  · simp only [siblingPair, count]
    omega

end

end Dropping

section Removing

variable {t : BplusTree} {y : Shape} {leaf : Addr} {key : Int} {p : Nat}

theorem leafRemove_absent (rep : Rep t y) (mem : leaf ∈ y.nodes 0) (absent : key ∉ y.keys leaf) :
    leafRemove t leaf key = (-1, t) := by
  obtain ⟨⟨-, row⟩, -⟩ := rep.lies 0 leaf mem id
  obtain ⟨p, -, result⟩ := keyBinarySearch_spec (row ▸ (rep.valid.leaf mem).1) key
  grind [leafRemove]

section

variable (rep : Rep t y) (mem : leaf ∈ y.nodes 0) (place : PlaceOf (y.keys leaf) key p) (present : key ∈ y.keys leaf)
include rep mem place present

/-- The search of `leaf_remove` finds the key. -/
theorem leafRemove_found :
    p < t.heap.count leaf ∧ keyBinarySearch (t.heap.key leaf) (t.heap.count leaf) key = p := by
  obtain ⟨holds, -⟩ := rep.lies 0 leaf mem id
  have sorted := (rep.valid.leaf mem).1
  obtain ⟨q, other, result⟩ := keyBinarySearch_spec (holds.2 ▸ sorted) key
  rw [holds.2] at other result
  obtain rfl := other.unique place
  refine ⟨?_, result.trans (if_pos present)⟩
  rw [holds.leafCount]
  exact (List.getElem?_eq_some_iff.mp ((place.mem_iff sorted).mp present)).1

theorem leafRemove_simple (calm : (t.entries + 1) / 2 < t.heap.count leaf ∨ (leaf = y.root ∧ t.heap.count leaf ≠ 1)) :
    leafRemove t leaf key = (0, { t with heap := t.heap.leafSimpleRemove leaf p }) ∧
      Rep { t with heap := t.heap.leafSimpleRemove leaf p } (y.setKeys leaf ((y.keys leaf).eraseIdx p)) := by
  obtain ⟨inside, result⟩ := leafRemove_found rep mem place present
  have found : ¬((p : Int) < 0) := by omega
  have pos := rep.config.2
  refine ⟨?_, (rep.dropping mem inside).simple_rep (by omega) fun inner => ?_⟩
  · grind [leafRemove, RepBut.top]
  · rcases calm with plenty | ⟨top, -⟩
    · omega
    · exact absurd top inner

theorem leafRemove_present (more : leaf = y.root → t.heap.count leaf ≠ 1) : (leafRemove t leaf key).1 = 0 ∧
      Becomes t (leafRemove t leaf key).2 ((y.nodes 0).flatMap (t.heap.pairsWithout leaf p)) := by
  obtain ⟨inside, result⟩ := leafRemove_found rep mem place present
  have dropping := rep.dropping mem inside
  have found : ¬((p : Int) < 0) := by omega
  have pos := rep.config.2
  simp only [leafRemove, result, ↓reduceIte, found, Int.toNat_natCast]
  by_cases few : t.heap.count leaf ≤ (t.entries + 1) / 2
  · simp only [few, ↓reduceIte]
    by_cases top : leaf = y.root
    · have orphan : t.heap.parent leaf = none := top ▸ rep.top
      have lone := more top
      simp only [orphan, lone, ↓reduceIte]
      exact ⟨trivial, dropping.simple (by omega) fun inner => absurd top inner⟩
    · obtain ⟨parent, above, known, chosen⟩ := select_sibling dropping.expects.rest mem top
      have wide := dropping.half top
      have most := dropping.most
      simp only [known]
      rcases chosen with ⟨left, l, right, kids, index, choice⟩ | ⟨left, r, right, kids, index, choice⟩
      · have index : (t.heap.parentKeyIdx leaf).toNat = left.length := by omega
        simp only [choice, index]
        by_cases plenty : t.heap.count l > (t.entries + 1) / 2
        · simp only [plenty, ↓reduceIte]
          exact ⟨trivial, dropping.shiftFromLeft top above kids plenty⟩
        · simp only [plenty, ↓reduceIte]
          exact ⟨trivial, dropping.mergeToLeft above kids few (not_lt.mp plenty)⟩
      · have index : (t.heap.parentKeyIdx leaf + 1).toNat = left.length := by omega
        obtain ⟨expects, pairs, ownCount, -⟩ := dropping.removed
        simp only [choice, index]
        by_cases plenty : (t.heap.leafSimpleRemove leaf p).count r > (t.entries + 1) / 2
        · simp only [plenty, ↓reduceIte]
          rw [← pairs]
          exact ⟨trivial, (expects.shiftFromRight above kids plenty (by simp only; omega)
            (by simp only; omega)).of_store⟩
        · simp only [plenty, ↓reduceIte]
          rw [← pairs]
          exact ⟨trivial, (expects.mergeFromRight above kids (by simp only; omega) (not_lt.mp plenty)).of_store⟩
  · simp only [few, ↓reduceIte]
    exact ⟨trivial, dropping.simple (by omega) fun _ => by omega⟩

end

theorem rootLeaf_alone (valid : y.Valid) (top : leaf = y.root) (mem : leaf ∈ y.nodes 0) :
    y.level = 0 ∧ y.nodes 0 = [leaf] := by
  grind [Layout.Valid.apart, Layout.Valid.top]

theorem leafRemove_last (rep : Rep t y) (top : leaf = y.root) (mem : leaf ∈ y.nodes 0)
    (present : key ∈ y.keys leaf) (lone : t.heap.count leaf = 1) :
    (leafRemove t leaf key).1 = 0 ∧ Blank (leafRemove t leaf key).2 ∧
      (leafRemove t leaf key).2.order = t.order ∧ (leafRemove t leaf key).2.entries = t.entries := by
  have valid := rep.valid
  obtain ⟨holds, -⟩ := rep.lies 0 leaf mem id
  have row := holds.2
  obtain ⟨q, -, result⟩ := keyBinarySearch_spec (row ▸ (valid.leaf mem).1) key
  rw [row] at result
  have found : ¬((q : Int) < 0) := by omega
  have few : 1 ≤ (t.entries + 1) / 2 := by
    have := rep.config.2
    omega
  have orphan : t.heap.parent leaf = none := top ▸ rep.top
  have only : key = t.heap.key leaf 0 := by
    rw [← row, lone] at present
    simpa [slots] using present
  obtain ⟨level, alone⟩ := rootLeaf_alone valid top mem
  have nodes : replaceNode y.nodes 0 leaf [] = fun _ => [] := by
    rw [replaceNode_eq (valid.nodup 0) (show y.nodes 0 = [] ++ leaf :: [] from alone)]
    funext j
    by_cases bottom : j = 0
    · simp [bottom]
    · rw [update_of_ne bottom, eq_nil_iff_forall_not_mem]
      intro a inside
      have := valid.level_le inside
      omega
  simp only [leafRemove, result, present, ↓reduceIte, found]
  simp only [lone, few, orphan, ← only, ↓reduceIte, decide_true, check_true]
  have rings := rep.rings.del valid.apart (by decide) (valid.nodup 0) mem
  rw [nodes] at rings
  exact ⟨trivial, ⟨rep.config, rfl, rep.level.trans level, rings, rep.fault⟩, trivial, trivial⟩

end Removing

end BlockchainPG.Mbt
