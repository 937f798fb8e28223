import BlockchainPG.Lib.Runs
import BlockchainPG.Mbt.LeafDelete
import BlockchainPG.Mbt.LeafInsert
import Mathlib.Data.Finset.Card

/-! The tree as a store of entries, and the shape it keeps. -/

namespace BlockchainPG.Mbt

section

open Lib List

section Targets

variable {t : BplusTree} {y : Shape} {leaf : Addr} {key : Int} {p : Nat}

/-- Where a key is or would be. -/
structure Targets (t : BplusTree) (y : Shape) (key : Int) (leaf : Addr) (p : Nat) : Prop where
  mem : leaf ∈ y.nodes 0
  covers : y.Covers leaf key
  place : PlaceOf (y.keys leaf) key p
  found : t.heap.descend key (t.level + 1) y.root = some leaf

theorem RepBut.targets (rep : Rep t y) (key : Int) : ∃ leaf p, Targets t y key leaf p := by
  obtain ⟨leaf, mem, covers, found⟩ := rep.descend key
  have row := (rep.lies 0 leaf mem id).1.2
  obtain ⟨p, place, -⟩ := keyBinarySearch_spec (row ▸ (rep.valid.leaf mem).1) key
  exact ⟨leaf, p, mem, covers, row ▸ place, found⟩

theorem Targets.mem_iff (targets : Targets t y key leaf p) (rep : Rep t y) : key ∈ y.leafKeys ↔ key ∈ y.keys leaf :=
  rep.valid.mem_leafKeys targets.mem targets.covers

theorem bplusTreeInsert_present (rep : Rep t y) (present : key ∈ y.leafKeys) (data : CString)
    (tid : ItemPointerData) : bplusTreeInsert t key data tid = (-1, t) := by
  obtain ⟨leaf, p, targets⟩ := rep.targets key
  simp only [bplusTreeInsert, rep.root, targets.found]
  exact leafInsert_present rep targets.mem ((targets.mem_iff rep).mp present) data tid

theorem bplusTreeInsert_absent (rep : Rep t y) (targets : Targets t y key leaf p) (absent : key ∉ y.leafKeys)
    (data : CString) (tid : ItemPointerData) : Succeeds (replaceNode y.nodes 0 leaf (leafRun t leaf p) 0)
      (y.setKeys leaf (keysWith (y.keys leaf) p key)).leafKeys
      { t with heap := leafStore t leaf key data tid p } (bplusTreeInsert t key data tid) := by
  have same : bplusTreeInsert t key data tid = leafInsert t leaf key data tid := by
    simp only [bplusTreeInsert, rep.root, targets.found]
  grind [leafInsert_absent, Targets.mem, Targets.covers, Targets.place, Targets.mem_iff]

theorem bplusTreeDelete_absent (rep : Rep t y) (absent : key ∉ y.leafKeys) : bplusTreeDelete t key = (-1, t) := by
  obtain ⟨leaf, p, targets⟩ := rep.targets key
  simp only [bplusTreeDelete, rep.root, targets.found]
  exact leafRemove_absent rep targets.mem fun own => absent ((targets.mem_iff rep).mpr own)

theorem bplusTreeDelete_eq (rep : Rep t y) (targets : Targets t y key leaf p) :
    bplusTreeDelete t key = leafRemove t leaf key := by
  simp only [bplusTreeDelete, rep.root, targets.found]

end Targets

section Blank

variable {t : BplusTree}

theorem bplusTreeInit_blank (memory : Heap) (order : BPLUS_MIN_ORDER ≤ n ∧ n ≤ BPLUS_MAX_ORDER)
    (entries : 0 < m ∧ m ≤ BPLUS_MAX_ENTRIES) : Blank (bplusTreeInit memory n m) where
  config := ⟨order.1, entries.1⟩
  root := rfl
  level := rfl
  rings := by
    let motive (k : Nat) (links : Links Link) : Prop := ∀ j < k, Ring links (.head j) []
    refine forUp_invariant (motive := motive) (Nat.zero_le _) (fun j low => absurd low (Nat.not_lt_zero j)) ?_
    intro k links _ _ rings j low
    rcases Nat.lt_succ_iff_lt_or_eq.mp low with before | rfl
    · exact (rings j before).init_other (by simpa using (Nat.ne_of_lt before).symm)
    · exact Ring.of_init ..
  fault := by simp [bplusTreeInit, order.2, entries.2]

theorem bplusTreeInsert_blank (blank : Blank t) (key : Int) (data : CString) (tid : ItemPointerData) :
    let result := bplusTreeInsert t key data tid
    result.1 = 0 ∧ Rep result.2 (Layout.single t.heap.leafNew.1 [key]) ∧
      result.2.heap.pairs t.heap.leafNew.1 = [(key, data)] ∧ result.2.order = t.order ∧
      result.2.entries = t.entries := by
  intro result
  have allocates := Heap.leafNew_allocates t.heap
  let root := t.heap.leafNew.1
  let h := ((((t.heap.leafNew.2).setKey root 0 key).writeTid root 0 tid).setData root 0 data).setCount root 1
  have value : result = (0, { t with
      root := some root
      heap := { h with links := h.links.add (.node root) (.head t.level) } }) := by
    simp only [result, bplusTreeInsert, blank.root]
    rfl
  rw [value]
  have keyRow : h.key root 0 = key := by simp [h, Heap.setKey, Heap.writeTid, Heap.setData, Heap.setCount]
  have dataRow : h.data root 0 = data := by simp [h, Heap.setKey, Heap.writeTid, Heap.setData, Heap.setCount]
  have count : h.count root = 1 := by simp [h, Heap.setCount]
  have type : h.type root = BPLUS_TREE_LEAF := by
    simp [h, root, Heap.setKey, Heap.writeTid, Heap.setData, Heap.setCount, Heap.leafNew]
  have pos := blank.config.2
  refine ⟨rfl, ⟨Layout.single_valid root (pairwise_singleton ..), blank.config, rfl, blank.level, ?_, ?_, ?_, ?_,
    allocates.newParent, allocates.fault.trans blank.fault⟩, ?_, rfl, rfl⟩
  · rw [show (Layout.single root [key]).level = 0 from rfl]
    decide
  · intro k node mem _
    obtain ⟨rfl, rfl⟩ := Layout.single_mem mem
    refine ⟨⟨type, ?_⟩, ?_⟩
    · show slots (h.key root) (h.count root) = [key]
      rw [count, ← keyRow]
      rfl
    · exact ⟨Nat.one_pos, pos, fun other => absurd rfl other⟩
  · have fresh : ∀ _ : Nat, root ∉ ([] : List Addr) := fun _ => not_mem_nil
    have rings := (blank.rings.init fresh).addFirst (fun _ _ _ _ => by simp)
      (show t.level < BPLUS_MAX_LEVEL by rw [blank.level]; decide) rfl fresh
    show Rings (h.links.add (.node root) (.head t.level)) (Layout.single root [key]).nodes
    rw [blank.level] at rings ⊢
    exact rings
  · intro k node mem
    obtain ⟨rfl, rfl⟩ := Layout.single_mem mem
    exact Nat.lt_succ_self _
  · show slots (h.row root) (h.count root) = [(key, data)]
    rw [count, ← keyRow, ← dataRow]
    rfl

end Blank

section Deleting

variable {t : BplusTree} {y : Shape} {leaf : Addr} {key : Int} {p : Nat}

theorem Targets.mem_pairsWithout (targets : Targets t y key leaf p) (rep : Rep t y) (present : key ∈ y.keys leaf) :
    x ∈ (y.nodes 0).flatMap (t.heap.pairsWithout leaf p) ↔ x ∈ (y.nodes 0).flatMap t.heap.pairs ∧ x.1 ≠ key := by
  have valid := rep.valid
  have sorted := (valid.leaf targets.mem).1
  have slot := (targets.place.mem_iff sorted).mp present
  have keys := rep.keys_eq targets.mem id
  -- only the target leaf can hold the key
  have elsewhere : ∀ a ∈ y.nodes 0, a ≠ leaf → x ∈ t.heap.pairs a → x.1 ≠ key := by
    rintro a mem other own rfl
    have inside : x.1 ∈ y.keys a := by
      rw [rep.keys_eq mem id]
      exact mem_map_of_mem own
    exact other (valid.covers_unique mem targets.mem ((valid.leaf mem).covers inside) targets.covers)
  have here : x ∈ (t.heap.pairs leaf).eraseIdx p ↔ x ∈ t.heap.pairs leaf ∧ x.1 ≠ key := by
    rw [keys, getElem?_map] at slot
    rw [mem_eraseIdx_iff_getElem?]
    constructor
    · rintro ⟨i, other, found⟩
      refine ⟨mem_of_getElem? found, fun same => other ?_⟩
      have distinct : ((t.heap.pairs leaf).map Prod.fst).Nodup := keys ▸ sorted.imp ne_of_lt
      have inside : i < ((t.heap.pairs leaf).map Prod.fst).length := by
        grind
      refine (getElem?_inj inside distinct).mp ?_
      grind
    · grind [mem_iff_getElem?]
  grind [Heap.pairsWithout_self, Heap.pairsWithout_of_ne]

end Deleting

/-- The tree is well laid out and its leaves hold just these entries. -/
def Stores (t : BplusTree) (content : Set (Int × CString)) : Prop :=
  (Blank t ∧ content = ∅) ∨ ∃ y, Rep t y ∧ ∀ x, x ∈ (y.nodes 0).flatMap t.heap.pairs ↔ x ∈ content

section Steps

variable {t : BplusTree} {content : Set (Int × CString)} {key : Int}

def keysOf (content : Set (Int × CString)) : Set Int := Prod.fst '' content

theorem RepBut.mem_leafKeys {y : Shape} (rep : Rep t y)
    (stores : ∀ x, x ∈ (y.nodes 0).flatMap t.heap.pairs ↔ x ∈ content) : key ∈ y.leafKeys ↔ key ∈ keysOf content := by
  grind [leafKeys_eq, keysOf]

theorem Stores.delete_absent (stores : Stores t content) (absent : key ∉ keysOf content) :
    bplusTreeDelete t key = (-1, t) := by
  rcases stores with ⟨blank, -⟩ | ⟨y, rep, same⟩
  · simp only [bplusTreeDelete, blank.root]
  · exact bplusTreeDelete_absent rep fun present => absent ((rep.mem_leafKeys same).mp present)

theorem Stores.delete_present (stores : Stores t content) (present : key ∈ keysOf content) :
    let result := bplusTreeDelete t key
    result.1 = 0 ∧ Stores result.2 { x | x ∈ content ∧ x.1 ≠ key } ∧ result.2.order = t.order ∧
      result.2.entries = t.entries := by
  rcases stores with ⟨-, rfl⟩ | ⟨y, rep, same⟩
  · simp [keysOf] at present
  obtain ⟨leaf, p, targets⟩ := rep.targets key
  have own := (targets.mem_iff rep).mp ((rep.mem_leafKeys same).mpr present)
  have remains := fun x : Int × CString => (targets.mem_pairsWithout rep own).trans (and_congr_left' (same x))
  simp only [bplusTreeDelete_eq rep targets]
  by_cases last : leaf = y.root ∧ t.heap.count leaf = 1
  · obtain ⟨code, blank, order, entries⟩ := leafRemove_last rep last.1 targets.mem own last.2
    refine ⟨code, Or.inl ⟨blank, ?_⟩, order, entries⟩
    -- the leaf is all there is, and its only entry is the one deleted
    obtain ⟨-, alone⟩ := rootLeaf_alone rep.valid last.1 targets.mem
    have inside := (List.getElem?_eq_some_iff.mp
      ((targets.place.mem_iff (rep.valid.leaf targets.mem).1).mp own)).1
    rw [rep.keys_eq targets.mem id, length_map, Heap.pairs_length, last.2] at inside
    have none : (t.heap.pairs leaf).eraseIdx p = [] := by
      grind [length_eq_zero_iff, length_eraseIdx_of_lt, Heap.pairs_length]
    refine Set.eq_empty_of_forall_notMem fun x mem => ?_
    grind [Heap.pairsWithout_self]
  · obtain ⟨code, ⟨y', rep', rows⟩, order, entries⟩ := leafRemove_present rep targets.mem targets.place own
      fun top lone => last ⟨top, lone⟩
    refine ⟨code, Or.inr ⟨y', rep', fun x => ?_⟩, order, entries⟩
    rw [rows]
    exact remains x

theorem Stores.insert_present (stores : Stores t content) (present : key ∈ keysOf content) (data : CString)
    (tid : ItemPointerData) : bplusTreeInsert t key data tid = (-1, t) := by
  rcases stores with ⟨-, rfl⟩ | ⟨y, rep, same⟩
  · simp [keysOf] at present
  · exact bplusTreeInsert_present rep ((rep.mem_leafKeys same).mpr present) data tid

theorem Stores.insert_absent (stores : Stores t content) (absent : key ∉ keysOf content) (data : CString)
    (tid : ItemPointerData) : let result := bplusTreeInsert t key data tid
    result.1 = 0 ∧ (result.2.level < BPLUS_MAX_LEVEL →
      (∃ after, Stores result.2 after ∧ keysOf after = insert key (keysOf content)) ∧ result.2.order = t.order ∧
        result.2.entries = t.entries) := by
  intro result
  rcases stores with ⟨blank, rfl⟩ | ⟨y, rep, same⟩
  · obtain ⟨code, rep, pairs, order, entries⟩ := bplusTreeInsert_blank blank key data tid
    refine ⟨code, fun _ => ⟨⟨{(key, data)}, Or.inr ⟨_, rep, fun x => ?_⟩, ?_⟩, order, entries⟩⟩
    · simp [Layout.single, pairs, result]
    · simp [keysOf]
  obtain ⟨leaf, p, targets⟩ := rep.targets key
  obtain ⟨code, settles⟩ := bplusTreeInsert_absent rep targets
    (fun present => absent ((rep.mem_leafKeys same).mp present)) data tid
  refine ⟨code, fun height => ?_⟩
  obtain ⟨⟨y', rep', -, keys⟩, kept⟩ := settles height
  refine ⟨⟨{ x | x ∈ (y'.nodes 0).flatMap result.2.heap.pairs }, Or.inr ⟨y', rep', fun _ => Iff.rfl⟩, ?_⟩,
    kept.order, kept.entries⟩
  have now : ∀ other, other ∈ y'.leafKeys ↔ other ∈ keysOf { x | x ∈ (y'.nodes 0).flatMap result.2.heap.pairs } :=
    fun other => rep'.mem_leafKeys fun _ => Iff.rfl
  have before : ∀ other ∈ y.keys leaf, other ∈ keysOf content := fun other own =>
    (rep.mem_leafKeys same).mp (List.mem_flatMap.mpr ⟨leaf, targets.mem, own⟩)
  grind [Layout.setKeys_mem_leafKeys, RepBut.valid, Targets.mem, mem_keysWith, RepBut.mem_leafKeys]

end Steps

end

open Lib

namespace Heap

def children (h : Heap) (node : Addr) : List Addr := slots (h.subPtr node) (h.count node)

/-- All keys of the subtree of height `k` below a node, separators included. -/
def keysUnder (h : Heap) : Nat → Addr → List Int
  | 0, leaf => slots (h.key leaf) (h.count leaf)
  | k + 1, node => slots (h.key node) (h.count node - 1) ++ (h.children node).flatMap (h.keysUnder k)

end Heap

namespace BplusTree

def nodesAt (t : BplusTree) : Nat → List Addr
  | 0 => t.root.toList
  | depth + 1 => (t.nodesAt depth).flatMap t.heap.children

/-- The nodes that `list[k]` should link. -/
def levelNodes (t : BplusTree) (k : Nat) : List Addr := if k ≤ t.level then t.nodesAt (t.level - k) else []

def leafKeys (t : BplusTree) : List Int := (t.nodesAt t.level).flatMap (t.heap.keysUnder 0)

end BplusTree

structure WellFormed (t : BplusTree) : Prop where
  height : t.level < BPLUS_MAX_LEVEL
  types : ∀ depth ≤ t.level, ∀ node ∈ t.nodesAt depth,
    t.heap.type node = if depth = t.level then BPLUS_TREE_LEAF else BPLUS_TREE_NON_LEAF
  distinct : ∀ depth ≤ t.level, (t.nodesAt depth).Nodup
  leafSorted : ∀ leaf ∈ t.nodesAt t.level, (slots (t.heap.key leaf) (t.heap.count leaf)).Pairwise (· < ·)
  innerSorted : ∀ depth < t.level, ∀ node ∈ t.nodesAt depth,
    (slots (t.heap.key node) (t.heap.count node - 1)).Pairwise (· < ·)
  separated : ∀ depth < t.level, ∀ node ∈ t.nodesAt depth, ∀ i, i + 1 < t.heap.count node →
    (∀ key ∈ t.heap.keysUnder (t.level - depth - 1) (t.heap.subPtr node i), key < t.heap.key node i) ∧
      ∀ key ∈ t.heap.keysUnder (t.level - depth - 1) (t.heap.subPtr node (i + 1)), t.heap.key node i ≤ key
  leafSize : ∀ leaf ∈ t.nodesAt t.level, 0 < t.heap.count leaf ∧ t.heap.count leaf ≤ t.entries ∧
    (t.root ≠ some leaf → (t.entries + 1) / 2 ≤ t.heap.count leaf)
  innerSize : ∀ depth < t.level, ∀ node ∈ t.nodesAt depth, 2 ≤ t.heap.count node ∧ t.heap.count node ≤ t.order ∧
    (t.root ≠ some node → max 2 (t.order / 2) ≤ t.heap.count node)
  parents : ∀ depth < t.level, ∀ node ∈ t.nodesAt depth, ∀ i < t.heap.count node,
    t.heap.parent (t.heap.subPtr node i) = some node ∧ t.heap.parentKeyIdx (t.heap.subPtr node i) = i - 1
  top : ∀ root ∈ t.root, t.heap.parent root = none
  lists : ∀ k < BPLUS_MAX_LEVEL, Ring t.heap.links (.head k) ((t.levelNodes k).map .node)
  fault : t.heap.fault = false

section Reading

variable {t : BplusTree} {y : Shape}

theorem RepBut.children_eq (rep : Rep t y) (mem : node ∈ y.nodes (k + 1)) : t.heap.children node = y.kids node :=
  (rep.lies (k + 1) node mem id).1.2.1

theorem RepBut.nodesAt_eq (rep : Rep t y) (inside : depth ≤ y.level) : t.nodesAt depth = y.nodes (y.level - depth) := by
  induction depth with
  | zero =>
    rw [BplusTree.nodesAt, rep.root, Nat.sub_zero, rep.valid.top]
    rfl
  | succ depth ih =>
    have above : y.level - depth = y.level - (depth + 1) + 1 := by omega
    rw [BplusTree.nodesAt, ih (by omega), above, rep.valid.flat (y.level - (depth + 1)) (by omega)]
    exact List.flatMap_congr fun node mem => rep.children_eq mem

theorem RepBut.levelNodes_eq (rep : Rep t y) (k : Nat) : t.levelNodes k = y.nodes k := by
  rw [BplusTree.levelNodes, rep.level]
  by_cases inside : k ≤ y.level
  · rw [if_pos inside, rep.nodesAt_eq (by omega), Nat.sub_sub_self inside]
  · rw [if_neg inside, rep.valid.above k (by omega)]

theorem RepBut.leaves_eq (rep : Rep t y) : t.nodesAt t.level = y.nodes 0 := by
  rw [rep.level, rep.nodesAt_eq le_rfl, Nat.sub_self]

theorem RepBut.nodes_le_next (rep : Rep t y) (k : Nat) : (y.nodes k).length ≤ t.heap.next := by
  have among : y.nodes k ⊆ List.range t.heap.next := fun node mem => List.mem_range.mpr (rep.fresh k node mem)
  simpa using ((rep.valid.nodup k).subperm among).length_le

theorem RepBut.keysUnder_covers (rep : Rep t y) (mem : node ∈ y.nodes k) (own : key ∈ t.heap.keysUnder k node) :
    y.Covers node key := by
  induction k generalizing node with
  | zero =>
    rw [Heap.keysUnder, (rep.lies 0 node mem id).1.2] at own
    exact (rep.valid.leaf mem).covers own
  | succ k ih =>
    obtain ⟨-, -, keyRow, -⟩ := (rep.lies (k + 1) node mem id).1
    have inner := rep.valid.inner mem
    rw [Heap.keysUnder, keyRow, rep.children_eq mem] at own
    rcases List.mem_append.mp own with separator | below
    · obtain ⟨low, high⟩ := inner.1.2 key separator
      exact ⟨low.le, high⟩
    · obtain ⟨kid, present, under⟩ := List.mem_flatMap.mp below
      obtain ⟨i, slot⟩ := List.getElem?_of_mem present
      exact ((inner.child_covers slot).mp (ih (rep.valid.kid_mem mem present) under)).1

theorem RepBut.separated (rep : Rep t y) (mem : node ∈ y.nodes (k + 1)) (inside : i + 1 < t.heap.count node) :
    (∀ key ∈ t.heap.keysUnder k (t.heap.subPtr node i), key < t.heap.key node i) ∧
      ∀ key ∈ t.heap.keysUnder k (t.heap.subPtr node (i + 1)), t.heap.key node i ≤ key := by
  obtain ⟨-, kidRow, keyRow, -⟩ := (rep.lies (k + 1) node mem id).1
  have inner := rep.valid.inner mem
  have slot : ∀ j < t.heap.count node, (y.kids node)[j]? = some (t.heap.subPtr node j) := fun j less => by
    rw [← kidRow, slots_getElem?, if_pos less]
  have cut : (y.keys node)[i]? = some (t.heap.key node i) := by
    rw [← keyRow, slots_getElem?, if_pos (by omega)]
  have covers : ∀ j < t.heap.count node, ∀ key ∈ t.heap.keysUnder k (t.heap.subPtr node j), _ :=
    fun j less key under => (inner.child_covers (slot j less)).mp
      (rep.keysUnder_covers (rep.valid.kid_mem mem (List.mem_of_getElem? (slot j less))) under)
  obtain ⟨size, same⟩ := List.getElem?_eq_some_iff.mp cut
  constructor
  · intro key under
    refine (covers i (by omega) key under).2.2 _ (List.mem_drop_iff_getElem.mpr ⟨0, by omega, ?_⟩)
    simpa using same
  · intro key under
    exact (covers (i + 1) inside key under).2.1 _ (List.mem_take_iff_getElem.mpr ⟨i, by omega, same⟩)

theorem RepBut.wellFormed (rep : Rep t y) : WellFormed t := by
  have valid := rep.valid
  have inner : ∀ depth < t.level, ∀ node ∈ t.nodesAt depth, ∃ k, t.level - depth - 1 = k ∧ node ∈ y.nodes (k + 1) := by
    intro depth high node mem
    rw [rep.nodesAt_eq (by rw [← rep.level]; omega), ← rep.level] at mem
    exact ⟨_, rfl, by rwa [Nat.sub_add_cancel (by omega)]⟩
  have notRoot : ∀ node, t.root ≠ some node ↔ node ≠ y.root := by
    intro node
    rw [rep.root, ne_eq, Option.some.injEq, eq_comm]
  refine ⟨rep.level ▸ rep.height, ?_, ?_, ?_, ?_, ?_, ?_, ?_, ?_, ?_, ?_, rep.fault⟩
  · intro depth high node mem
    by_cases bottom : depth = t.level
    · rw [if_pos bottom]
      rw [bottom, rep.leaves_eq] at mem
      exact (rep.lies 0 node mem id).1.1
    · obtain ⟨k, -, present⟩ := inner depth (by omega) node mem
      rw [if_neg bottom]
      exact (rep.lies (k + 1) node present id).1.1
  · intro depth high
    rw [rep.nodesAt_eq (rep.level ▸ high)]
    exact valid.nodup _
  · intro leaf mem
    rw [rep.leaves_eq] at mem
    rw [(rep.lies 0 leaf mem id).1.2]
    exact (valid.leaf mem).1
  · intro depth high node mem
    obtain ⟨k, -, present⟩ := inner depth high node mem
    rw [(rep.lies (k + 1) node present id).1.2.2.1]
    exact (valid.inner present).1.1
  · grind [separated]
  · grind [leaves_eq, leafSized]
  · intro depth high node mem
    obtain ⟨k, -, present⟩ := inner depth high node mem
    obtain ⟨holds, least, most, half⟩ := rep.lies (k + 1) node present id
    grind [Heap.Holds.count]
  · intro depth high node mem i inside
    obtain ⟨k, -, present⟩ := inner depth high node mem
    obtain ⟨-, kidRow, -, parents⟩ := (rep.lies (k + 1) node present id).1
    grind [slots_getElem?]
  · grind [Option.mem_def, top]
  · intro k small
    rw [rep.levelNodes_eq]
    exact rep.rings k small

theorem Blank.wellFormed (blank : Blank t) : WellFormed t ∧ t.leafKeys = [] := by
  have none : ∀ depth, t.nodesAt depth = [] := by
    intro depth
    induction depth with
    | zero => rw [BplusTree.nodesAt, blank.root]; rfl
    | succ depth ih => rw [BplusTree.nodesAt, ih]; rfl
  have level := blank.level
  refine ⟨⟨by rw [level]; decide, ?_, ?_, ?_, ?_, ?_, ?_, ?_, ?_, ?_, ?_, blank.fault⟩, by
    rw [BplusTree.leafKeys, none]; rfl⟩
  · grind
  · exact fun depth _ => none depth ▸ List.nodup_nil
  · grind
  · omega
  · omega
  · grind
  · omega
  · omega
  · exact fun root same => by simp [blank.root] at same
  · intro k small
    have nodes : t.levelNodes k = [] := by
      rw [BplusTree.levelNodes, none, ite_self]
    rw [nodes]
    exact blank.rings k small

end Reading

/-- The arguments of one `bplus_tree_put` call. -/
structure Put where
  key : Int
  data : CString
  tid : ItemPointerData

/-- The tree after a call. -/
def put (t : BplusTree) (call : Put) : BplusTree := (bplusTreePut t call.key call.data call.tid).2

def putKeys (keys : Finset Int) (call : Put) : Finset Int :=
  if call.data ≠ zeroString then insert call.key keys else keys.erase call.key

/-- A call that inserts a present key or deletes an absent one. -/
def Refused (keys : Finset Int) (call : Put) : Prop :=
  if call.data ≠ zeroString then call.key ∈ keys else call.key ∉ keys

def HasKeys (order entries : Nat) (t : BplusTree) (keys : Finset Int) : Prop :=
  t.order = order ∧ t.entries = entries ∧ ∃ content, Stores t content ∧ ∀ key, key ∈ keys ↔ key ∈ keysOf content

section Calls

variable {t : BplusTree} {keys : Finset Int} {order entries : Nat}

theorem HasKeys.code (has : HasKeys order entries t keys) (call : Put) :
    (bplusTreePut t call.key call.data call.tid).1 = -1 ↔ Refused keys call := by
  obtain ⟨-, -, content, stores, same⟩ := has
  grind [bplusTreePut, Refused, Stores.insert_present, Stores.insert_absent, Stores.delete_present,
    Stores.delete_absent]

theorem HasKeys.put (has : HasKeys order entries t keys) (call : Put)
    (height : (put t call).level < BPLUS_MAX_LEVEL) : HasKeys order entries (put t call) (putKeys keys call) := by
  obtain ⟨orders, sizes, content, stores, same⟩ := has
  by_cases inserts : call.data ≠ zeroString
  · simp only [Mbt.put, bplusTreePut, putKeys, if_pos inserts] at height ⊢
    by_cases present : call.key ∈ keys
    · rw [stores.insert_present ((same _).mp present), Finset.insert_eq_of_mem present]
      exact ⟨orders, sizes, content, stores, same⟩
    · obtain ⟨⟨after, stores', keys'⟩, order', entries'⟩ :=
        (stores.insert_absent (fun own => present ((same _).mpr own)) call.data call.tid).2 height
      refine ⟨order'.trans orders, entries'.trans sizes, after, stores', fun key => ?_⟩
      rw [keys', Finset.mem_insert, Set.mem_insert_iff, same]
  · simp only [Mbt.put, bplusTreePut, putKeys, if_neg inserts] at height ⊢
    by_cases present : call.key ∈ keys
    · obtain ⟨-, stores', order', entries'⟩ := stores.delete_present ((same _).mp present)
      refine ⟨order'.trans orders, entries'.trans sizes, _, stores', fun key => ?_⟩
      rw [Finset.mem_erase, same]
      simp only [keysOf, Set.mem_image, Set.mem_ofPred_eq]
      grind
    · rw [stores.delete_absent fun own => present ((same _).mpr own), Finset.erase_eq_of_notMem present]
      exact ⟨orders, sizes, content, stores, same⟩

theorem HasKeys.wellFormed (has : HasKeys order entries t keys) :
    WellFormed t ∧ t.order = order ∧ t.entries = entries ∧ ∀ key, key ∈ t.leafKeys ↔ key ∈ keys := by
  obtain ⟨orders, sizes, content, stores, same⟩ := has
  rcases stores with ⟨blank, rfl⟩ | ⟨y, rep, held⟩
  · grind [Blank.wellFormed, keysOf]
  · refine ⟨rep.wellFormed, orders, sizes, fun key => ?_⟩
    have keys : t.leafKeys = y.leafKeys := by
      rw [BplusTree.leafKeys, rep.leaves_eq]
      exact List.flatMap_congr fun leaf mem => (rep.lies 0 leaf mem id).1.2
    rw [keys, rep.mem_leafKeys held, same]

theorem run_hasKeys (memory : Heap) (orders : BPLUS_MIN_ORDER ≤ order ∧ order ≤ BPLUS_MAX_ORDER)
    (sizes : 1 ≤ entries ∧ entries ≤ BPLUS_MAX_ENTRIES) {calls : List Put}
    (height : Meets put (fun t call => (put t call).level < BPLUS_MAX_LEVEL) (bplusTreeInit memory order entries)
      calls) :
    HasKeys order entries (run put (bplusTreeInit memory order entries) calls) (run putKeys ∅ calls) := by
  have start : HasKeys order entries (bplusTreeInit memory order entries) ∅ :=
    ⟨rfl, rfl, ∅, Or.inl ⟨bplusTreeInit_blank memory orders sizes, rfl⟩, fun key => by simp [keysOf]⟩
  exact height.simulates start fun _ _ call has low => has.put call low

end Calls

/-- Whatever is inserted and deleted, the tree stays a well-formed B+-tree of
just the keys it should have, and refused calls are told apart by their result. -/
theorem puts_wellFormed (memory : Heap) (order entries : Nat)
    (orders : BPLUS_MIN_ORDER ≤ order ∧ order ≤ BPLUS_MAX_ORDER) (sizes : 1 ≤ entries ∧ entries ≤ BPLUS_MAX_ENTRIES)
    (calls : List Put)
    (height : Meets put (fun t call => (put t call).level < BPLUS_MAX_LEVEL) (bplusTreeInit memory order entries)
      calls) :
    let t := run put (bplusTreeInit memory order entries) calls
    let keys := run putKeys ∅ calls
    WellFormed t ∧ t.order = order ∧ t.entries = entries ∧ (∀ key, key ∈ t.leafKeys ↔ key ∈ keys) ∧
      ∀ call : Put, (bplusTreePut t call.key call.data call.tid).1 = -1 ↔ Refused keys call := by
  intro t keys
  have has : HasKeys order entries t keys := run_hasKeys memory orders sizes height
  grind [HasKeys.wellFormed, HasKeys.code]

/-- Insertions that split leaves and inner nodes, then deletions that merge them again. -/
def splitsAndMerges : List Put :=
  ([5, 3, 8, 1, 9, 2, 7, 6].map fun key => ⟨key, ['a'], ⟨0, 0, 1⟩⟩) ++
    [3, 5, 1].map fun key => ⟨key, zeroString, ⟨0, 0, 1⟩⟩

theorem puts_wellFormed_splitsAndMerges : let t := run put (bplusTreeInit Heap.zeroed 3 2) splitsAndMerges
    WellFormed t ∧ t.level = 2 ∧ ∀ key, key ∈ t.leafKeys ↔ key ∈ run putKeys ∅ splitsAndMerges := by
  obtain ⟨formed, -, -, leaves, -⟩ := puts_wellFormed Heap.zeroed 3 2 (by decide) (by decide) splitsAndMerges
    (by decide +kernel)
  exact ⟨formed, by decide +kernel, leaves⟩

section Height

variable {t : BplusTree}

theorem length_mul_le_flatMap {f : α → List β} {l : List α} (each : ∀ x ∈ l, n ≤ (f x).length) :
    l.length * n ≤ (l.flatMap f).length := by
  induction l with
  | nil => simp
  | cons x l ih =>
    obtain ⟨own, others⟩ := List.forall_mem_cons.mp each
    have rest := ih others
    simp only [List.length_cons, List.flatMap_cons, List.length_append, Nat.succ_mul]
    omega

theorem WellFormed.not_root (formed : WellFormed t) (below : depth < t.level) (mem : node ∈ t.nodesAt (depth + 1)) :
    t.root ≠ some node := by
  intro root
  obtain ⟨parent, above, own⟩ := List.mem_flatMap.mp mem
  obtain ⟨i, inside, rfl⟩ := mem_slots.mp own
  exact (nomatch (formed.top _ root).symm.trans (formed.parents depth below parent above i inside).1)

/-- A level has at least twice a power of the least number of children. -/
theorem WellFormed.width (formed : WellFormed t) (root : t.root = some node) (below : depth < t.level) :
    2 * max 2 (t.order / 2) ^ depth ≤ (t.nodesAt (depth + 1)).length := by
  induction depth with
  | zero =>
    have size := (formed.innerSize 0 below node (by simp [BplusTree.nodesAt, root])).1
    simpa [BplusTree.nodesAt, root, Heap.children] using size
  | succ depth ih =>
    calc 2 * max 2 (t.order / 2) ^ (depth + 1)
        = 2 * max 2 (t.order / 2) ^ depth * max 2 (t.order / 2) := by rw [Nat.pow_succ, Nat.mul_assoc]
      _ ≤ (t.nodesAt (depth + 1)).length * max 2 (t.order / 2) := Nat.mul_le_mul_right _ (ih (by omega))
      _ ≤ (t.nodesAt (depth + 2)).length := length_mul_le_flatMap fun node mem => by
        rw [Heap.children, slots_length]
        exact (formed.innerSize _ below node mem).2.2 (formed.not_root (by omega) mem)

end Height

/-- The height is logarithmic: a tree with inner levels has as many keys as its height and the least
sizes of its nodes demand. -/
theorem puts_height (memory : Heap) (orders : BPLUS_MIN_ORDER ≤ order ∧ order ≤ BPLUS_MAX_ORDER)
    (sizes : 1 ≤ entries ∧ entries ≤ BPLUS_MAX_ENTRIES)
    (height : Meets put (fun t call => (put t call).level < BPLUS_MAX_LEVEL) (bplusTreeInit memory order entries) calls)
    (reached : t = run put (bplusTreeInit memory order entries) calls) (inner : 0 < t.level) :
    2 * max 2 (order / 2) ^ (t.level - 1) * ((entries + 1) / 2) ≤ (run putKeys ∅ calls).card := by
  have has := reached ▸ run_hasKeys memory orders sizes height
  obtain ⟨formed, rfl, rfl, leaves⟩ := has.wellFormed
  obtain ⟨-, -, content, ⟨blank, -⟩ | ⟨y, rep, -⟩, -⟩ := has
  · exact absurd blank.level (by omega)
  obtain ⟨depth, level⟩ : ∃ depth, t.level = depth + 1 := ⟨t.level - 1, by omega⟩
  have keys : t.leafKeys = y.leafKeys := by
    rw [BplusTree.leafKeys, rep.leaves_eq]
    exact List.flatMap_congr fun leaf mem => (rep.lies 0 leaf mem id).1.2
  have distinct : t.leafKeys.Nodup := keys ▸ rep.valid.leafKeys_sorted.imp fun less => less.ne
  have card : (run putKeys ∅ calls).card = t.leafKeys.length := by
    rw [← List.toFinset_card_of_nodup distinct]
    congr 1
    ext key
    simp [leaves]
  rw [card, level, Nat.add_sub_cancel]
  calc 2 * max 2 (t.order / 2) ^ depth * ((t.entries + 1) / 2)
      ≤ (t.nodesAt t.level).length * ((t.entries + 1) / 2) :=
        Nat.mul_le_mul_right _ (level ▸ formed.width rep.root (by omega))
    _ ≤ t.leafKeys.length := length_mul_le_flatMap fun leaf mem => by
      rw [Heap.keysUnder, slots_length]
      exact (formed.leafSize leaf mem).2.2 (formed.not_root (by omega) (level ▸ mem))

theorem puts_height_splitsAndMerges :
    2 * max 2 (3 / 2) ^ (2 - 1) * ((2 + 1) / 2) ≤ (run putKeys ∅ splitsAndMerges).card := by
  have level : (run put (bplusTreeInit Heap.zeroed 3 2) splitsAndMerges).level = 2 := by decide +kernel
  have bound := puts_height Heap.zeroed (by decide) (by decide) (by decide +kernel) rfl (level ▸ Nat.two_pos)
  rwa [level] at bound

end BlockchainPG.Mbt
