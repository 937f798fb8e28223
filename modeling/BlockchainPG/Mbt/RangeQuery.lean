import BlockchainPG.Mbt.WellFormed
import BlockchainPG.Vo.Object
import Mathlib.Algebra.Order.BigOperators.Group.List

/-! `bplus_tree_get_range_disk_vo`. -/

namespace BlockchainPG.Mbt

open Lib Vo List

/-- `tmp_len`: the search in an inner node takes all keys in front of the first zero for separators.
The array has one key less than the loop has turns, so that a full node of order `BPLUS_MAX_ORDER` goes on
with `sub_ptr[0]`; what is proved about the search is for smaller orders. -/
def nonzeroRun (key : Nat → Int) : Nat := ((range BPLUS_MAX_ORDER).takeWhile fun i => key i ≠ 0).length

/-- What a leaf scan has collected: the strings of the current leaf, those of the
leaves before it, and the heap addresses and keys inside the range. -/
structure RangeScan where
  nodedata : List CString
  data : List (List CString)
  result : List ItemPointerData
  keysResult : List Int

/-- A node on a border of the range, its hashes pushed behind those already there. -/
def note (border : Nat → Nodevo) (height : Nat) (node : Nodevo) : Nat → Nodevo :=
  Function.update border height { node with nhash := (border height).nhash ++ node.nhash }

namespace Heap

/-- The child that a bound is sent to. -/
def branch (h : Heap) (node : Addr) (bound : Int) : Nat :=
  let i := keyBinarySearch (h.key node) (nonzeroRun (h.key node)) bound
  if i ≥ 0 then (i + 1).toNat else (-i - 1).toNat

def leafPlace (h : Heap) (leaf : Addr) (bound : Int) : Nat :=
  let i := keyBinarySearch (h.key leaf) (h.count leaf) bound
  if i ≥ 0 then i.toNat else (-i - 1).toNat

def leftNode (h : Heap) (node : Addr) (place : Nat) : Nodevo where
  nodeId := h.nodeId node
  boundNodeChildno := h.count node
  nhash := (range place).map (h.childhash node)

def rightNode (h : Heap) (node : Addr) (place : Nat) : Nodevo where
  nodeId := h.nodeId node
  boundNodeChildno := h.count node
  nhash := (range' (place + 1) (h.count node - (place + 1))).map (h.childhash node)

/-- The loops down from the root: the leaf, the height reached and the border noted on the way. -/
def walkDown (h : Heap) (side : Addr → Nat → Nodevo) (bound : Int) :
    Nat → Addr → Nat → (Nat → Nodevo) → Addr × Nat × (Nat → Nodevo)
  | 0, leaf, height, border => (leaf, height, border)
  | level + 1, node, height, border =>
    let place := h.branch node bound
    h.walkDown side bound level (h.subPtr node place) (height + 1) (note border height (side node place))

def border (h : Heap) (side : Addr → Nat → Nodevo) (bound : Int) (level : Nat) (root : Addr) (height : Nat)
    (border : Nat → Nodevo) : Addr × Nat × (Nat → Nodevo) :=
  let (leaf, height, border) := h.walkDown side bound level root height border
  (leaf, height, note border height (side leaf (h.leafPlace leaf bound)))

/-- The heap address beside a key. -/
def tidAt (h : Heap) (leaf : Addr) (i : Nat) : ItemPointerData := h.cell (h.tids leaf i)

/-- The loop along the leaves. Behind the last leaf it would take the list head
for one. -/
def scanLeaves (h : Heap) (key1 key2 max : Int) : Nat → Addr → Nat → RangeScan → Option RangeScan
  | 0, _, _, _ => none
  | fuel + 1, ln, i, scan =>
    if h.key ln i ≤ max then
      let inside := key1 ≤ h.key ln i ∧ h.key ln i ≤ key2
      let nodedata := scan.nodedata ++ [h.data ln i]
      let result := if inside then scan.result ++ [h.tidAt ln i] else scan.result
      let keysResult := if inside then scan.keysResult ++ [h.key ln i] else scan.keysResult
      if i + 1 ≥ h.count ln then
        match h.listNextEntry ln with
        | none => none
        | some next => h.scanLeaves key1 key2 max fuel next 0 ⟨[], scan.data ++ [nodedata], result, keysResult⟩
      else h.scanLeaves key1 key2 max fuel ln (i + 1) ⟨nodedata, scan.data, result, keysResult⟩
    else some scan

/-- Where the loop along the leaves starts: behind the last key of a leaf the next leaf is taken. -/
def scanFrom (h : Heap) (leaf : Addr) (min : Int) : Option (Addr × Nat) :=
  let place := h.leafPlace leaf min
  if place ≥ h.count leaf then (h.listNextEntry leaf).map fun next => (next, 0) else some (leaf, place)

end Heap

/-- `bplus_tree_get_range_disk_vo`: the verification object, the heap addresses
and the keys. In a tree of one leaf the loops down leave their leaf pointers null. -/
def bplusTreeGetRangeDiskVo (t : BplusTree) (key1 key2 : Int) (vo : Rangevo) :
    Option (Rangevo × List ItemPointerData × List Int) :=
  match t.root with
  | none => none
  | some root =>
    if t.level = 0 then none
    else do
      let min := if key1 ≤ key2 then key1 else key2
      let max := if min = key1 then key2 else key1
      let (leaf, _, leftvo) := t.heap.border t.heap.leftNode min t.level root vo.traverseHeight.toNat vo.leftvo
      let (ln, i) ← t.heap.scanFrom leaf min
      let scan ← t.heap.scanLeaves key1 key2 max (t.heap.next * BPLUS_MAX_ENTRIES + 1) ln i ⟨[], vo.data, [], []⟩
      let (_, height, rightvo) := t.heap.border t.heap.rightNode max t.level root 0 vo.rightvo
      return ({ traverseHeight := height, leftvo, rightvo, data := scan.data ++ [scan.nodedata] }, scan.result,
        scan.keysResult)

namespace Heap

def addressed (h : Heap) (leaf : Addr) : List (Int × ItemPointerData) :=
  slots (fun i => (h.key leaf i, h.tidAt leaf i)) (h.count leaf)

/-- On the way down to a bound no separator is zero, and the keys left over behind the
separators that the search takes in are above the bound. -/
def Guided (h : Heap) (bound : Int) : Nat → Addr → Prop
  | 0, _ => True
  | k + 1, node => (∀ i < h.count node - 1, h.key node i ≠ 0) ∧
      (∀ i < nonzeroRun (h.key node), h.count node - 1 ≤ i → bound < h.key node i) ∧
      Guided h bound k (h.childFor node bound)

instance Guided.decidable (h : Heap) (bound : Int) : ∀ k node, Decidable (Guided h bound k node)
  | 0, _ => isTrue trivial
  | k + 1, node =>
    have : Decidable (Guided h bound k (h.childFor node bound)) := Guided.decidable h bound k (h.childFor node bound)
    inferInstanceAs (Decidable (_ ∧ _))

end Heap

/-- All keys with their heap addresses from left to right. -/
def BplusTree.entriesInOrder (t : BplusTree) : List (Int × ItemPointerData) :=
  (t.nodesAt t.level).flatMap t.heap.addressed

theorem le_nonzeroRun (inside : m ≤ BPLUS_MAX_ORDER) (nonzero : ∀ i < m, key i ≠ 0) :
    m ≤ nonzeroRun key := by
  obtain ⟨rest, split⟩ : ∃ rest, range BPLUS_MAX_ORDER = range m ++ rest :=
    ⟨_, (take_append_drop m (range BPLUS_MAX_ORDER)).symm.trans (by rw [take_range, min_eq_left inside])⟩
  grind [nonzeroRun, takeWhile_append_of_pos]

section Reading

variable {t : BplusTree} {y : Shape} {h : Heap} {front back : List Addr}

theorem branch_eq (sorted : (slots (h.key node) (h.count node - 1)).Pairwise (· < ·))
    (most : h.count node ≤ BPLUS_MAX_ORDER)
    (pos : 0 < h.count node) (nonzero : ∀ i < h.count node - 1, h.key node i ≠ 0)
    (larger : ∀ i < nonzeroRun (h.key node), h.count node - 1 ≤ i → bound < h.key node i) :
    h.subPtr node (h.branch node bound) = h.childFor node bound := by
  have longer := le_nonzeroRun (by omega) nonzero
  have same := keyBinarySearch_longer sorted longer fun j more less => larger j less more
  grind [Heap.branch, Heap.childFor]

theorem RepBut.walkDown_covers (rep : Rep t y) (orders : t.order ≤ BPLUS_MAX_ORDER) (side : Addr → Nat → Nodevo)
    (mem : node ∈ y.nodes k) (covers : y.Covers node bound) (guided : t.heap.Guided bound k node) (height : Nat)
    (border : Nat → Nodevo) : (t.heap.walkDown side bound k node height border).1 ∈ y.nodes 0 ∧
      y.Covers (t.heap.walkDown side bound k node height border).1 bound := by
  induction k generalizing node height border with
  | zero => exact ⟨mem, covers⟩
  | succ k ih =>
    obtain ⟨nonzero, larger, below⟩ := guided
    obtain ⟨holds, least, most, -⟩ := rep.lies (k + 1) node mem id
    have inner := rep.valid.inner mem
    have sorted : (slots (t.heap.key node) (t.heap.count node - 1)).Pairwise (· < ·) := holds.2.2.1 ▸ inner.1.1
    have count := holds.count
    obtain ⟨kid, inside⟩ := holds.childFor inner covers
    rw [Heap.walkDown, branch_eq sorted (by omega) (by omega) nonzero larger]
    exact ih (rep.valid.kid_mem mem kid) inside below _ _

theorem RepBut.leafPlace (rep : Rep t y) (mem : leaf ∈ y.nodes 0) (bound : Int) :
    PlaceOf (y.keys leaf) bound (t.heap.leafPlace leaf bound) := by
  have row := (rep.lies 0 leaf mem id).1.2
  obtain ⟨p, place, found⟩ := keyBinarySearch_spec (row ▸ (rep.valid.leaf mem).1) bound
  grind [Heap.leafPlace]

theorem addressed_drop (inside : i < h.count ln) :
    (h.addressed ln).drop i = (h.key ln i, h.tidAt ln i) :: (h.addressed ln).drop (i + 1) := by
  grind [Heap.addressed, slots_length, drop_eq_getElem_cons, slots_getElem]

/-- The entries that are still in front of the loop along the leaves. -/
def Heap.ahead (h : Heap) (ln : Addr) (i : Nat) (back : List Addr) : List (Int × ItemPointerData) :=
  (h.addressed ln).drop i ++ back.flatMap h.addressed

def Heap.strings (h : Heap) (leaf : Addr) : List CString := slots (h.data leaf) (h.count leaf)

def RangeScan.take (scan : RangeScan) (key1 key2 : Int) (strings : List CString)
    (entries : List (Int × ItemPointerData)) : RangeScan where
  nodedata := scan.nodedata ++ strings
  data := scan.data
  result := scan.result ++ (entries.filter fun entry => key1 ≤ entry.1 ∧ entry.1 ≤ key2).map Prod.snd
  keysResult := scan.keysResult ++ (entries.filter fun entry => key1 ≤ entry.1 ∧ entry.1 ≤ key2).map Prod.fst

/-- The current leaf is done. -/
def RangeScan.close (scan : RangeScan) : RangeScan :=
  { scan with nodedata := [], data := scan.data ++ [scan.nodedata] }

theorem RangeScan.take_take (scan : RangeScan) (first second : List CString)
    (some more : List (Int × ItemPointerData)) :
    (scan.take key1 key2 first some).take key1 key2 second more =
    scan.take key1 key2 (first ++ second) (some ++ more) := by
  simp [RangeScan.take]

/-- The entries of a leaf from a place on that the loop takes. -/
def Heap.low (h : Heap) (max : Int) (leaf : Addr) (i : Nat) : List (Int × ItemPointerData) :=
  ((h.addressed leaf).drop i).takeWhile fun entry => entry.1 ≤ max

/-- The loop along the leaves, a leaf at a time. -/
def Heap.gathered (h : Heap) (key1 key2 max : Int) : List Addr → Nat → RangeScan → Option RangeScan
  | [], _, _ => none
  | ln :: back, i, scan =>
    let taken := scan.take key1 key2 (((h.strings ln).drop i).take (h.low max ln i).length) (h.low max ln i)
    if i + (h.low max ln i).length ≥ h.count ln then h.gathered key1 key2 max back 0 taken.close else some taken

theorem low_cons {max : Int} (inside : i < h.count ln) (small : h.key ln i ≤ max) :
    h.low max ln i = (h.key ln i, h.tidAt ln i) :: h.low max ln (i + 1) := by
  rw [Heap.low, addressed_drop inside, takeWhile_cons_of_pos (by simpa using small), Heap.low]

theorem low_nil {max : Int} (inside : i < h.count ln) (large : ¬ h.key ln i ≤ max) : h.low max ln i = [] := by
  rw [Heap.low, addressed_drop inside, takeWhile_cons_of_neg (by simpa using large)]

theorem gathered_stop {key1 key2 max : Int} (inside : i < h.count ln) (large : ¬ h.key ln i ≤ max) (scan : RangeScan) :
    h.gathered key1 key2 max (ln :: back) i scan = some scan := by
  rw [Heap.gathered, low_nil inside large, if_neg (by simpa using inside)]
  simp [RangeScan.take]

theorem gathered_step {key1 key2 max : Int} (inside : i < h.count ln) (small : h.key ln i ≤ max) (scan : RangeScan) :
    h.gathered key1 key2 max (ln :: back) i scan =
      let taken := scan.take key1 key2 [h.data ln i] [(h.key ln i, h.tidAt ln i)]
      if i + 1 ≥ h.count ln then h.gathered key1 key2 max back 0 taken.close
      else h.gathered key1 key2 max (ln :: back) (i + 1) taken := by
  grind [Heap.gathered, low_cons, Heap.strings, drop_eq_getElem_cons, slots_getElem, Heap.low, Heap.addressed,
    slots_length, takeWhile_nil, RangeScan.take_take]

theorem scanLeaves_eq_gathered {key1 key2 max : Int}
    (linked : (ln :: back).map (fun leaf => h.links.next (.node leaf)) = back.map .node ++ [.head 0])
    (filled : ∀ leaf ∈ back, 0 < h.count leaf) (inside : i < h.count ln)
    (enough : (h.ahead ln i back).length ≤ fuel) (scan : RangeScan) :
    h.scanLeaves key1 key2 max fuel ln i scan = h.gathered key1 key2 max (ln :: back) i scan := by
  induction fuel generalizing ln i back scan with
  | zero =>
    rw [Heap.ahead, addressed_drop inside] at enough
    simp at enough
  | succ fuel ih =>
    have first : h.ahead ln i back = (h.key ln i, h.tidAt ln i) :: h.ahead ln (i + 1) back := by
      rw [Heap.ahead, addressed_drop inside]
      rfl
    have room : (h.ahead ln (i + 1) back).length ≤ fuel := by simpa [first] using enough
    by_cases small : h.key ln i ≤ max
    · have taken : (⟨scan.nodedata ++ [h.data ln i], scan.data,
          if key1 ≤ h.key ln i ∧ h.key ln i ≤ key2 then scan.result ++ [h.tidAt ln i] else scan.result,
          if key1 ≤ h.key ln i ∧ h.key ln i ≤ key2 then scan.keysResult ++ [h.key ln i] else scan.keysResult⟩ :
          RangeScan) = scan.take key1 key2 [h.data ln i] [(h.key ln i, h.tidAt ln i)] := by
        grind [RangeScan.take]
      rw [gathered_step inside small, Heap.scanLeaves, if_pos small, ← taken]
      by_cases last : i + 1 ≥ h.count ln
      · simp only [if_pos last]
        have rest : (h.addressed ln).drop (i + 1) = [] :=
          drop_eq_nil_of_le (by rw [Heap.addressed, slots_length]; omega)
        cases back with
        | nil =>
          have link : h.links.next (.node ln) = .head 0 := (List.cons.inj linked).1
          simp only [Heap.listNextEntry, link]
          rfl
        | cons next back =>
          have link : h.links.next (.node ln) = .node next := (List.cons.inj linked).1
          simp only [Heap.listNextEntry, link]
          refine ih (List.cons.inj linked).2 (fun leaf mem => filled leaf (mem_cons_of_mem next mem))
            (filled next mem_cons_self) ?_ _
          simpa [Heap.ahead, rest] using room
      · grind
    · rw [gathered_stop inside small, Heap.scanLeaves, if_neg small]

theorem low_all {max : Int} (inside : i ≤ h.count ln) : i + (h.low max ln i).length ≥ h.count ln ↔
    ∀ entry ∈ (h.addressed ln).drop i, entry.1 ≤ max := by
  have size : ((h.addressed ln).drop i).length = h.count ln - i := by
    rw [length_drop, Heap.addressed, slots_length]
  have most : (h.low max ln i).length ≤ ((h.addressed ln).drop i).length := ( takeWhile_prefix _).length_le
  constructor
  · intro all entry mem
    have same : h.low max ln i = (h.addressed ln).drop i :=
      ( takeWhile_prefix _).eq_of_length (by unfold Heap.low at *; omega)
    rw [Heap.low, takeWhile_eq_self_iff] at same
    simpa using same entry mem
  · grind [Heap.low, takeWhile_eq_self_iff]

theorem gathered_none {max : Int} (key1 key2 : Int) (inside : i ≤ h.count ln) (scan : RangeScan)
    (small : ∀ entry ∈ h.ahead ln i back, entry.1 ≤ max) : h.gathered key1 key2 max (ln :: back) i scan = none := by
  induction back generalizing ln i scan with
  | nil =>
    have all := (low_all inside).mpr fun entry mem => small entry (mem_append_left _ mem)
    rw [Heap.gathered, if_pos all, Heap.gathered]
  | cons next back ih =>
    have all := (low_all inside).mpr fun entry mem => small entry (mem_append_left _ mem)
    rw [Heap.gathered, if_pos all]
    apply ih (Nat.zero_le _)
    intro entry mem
    grind [Heap.ahead]

theorem gathered_some {max : Int} (key1 key2 : Int) (inside : i ≤ h.count ln) (scan : RangeScan)
    (ends : ∃ entry ∈ h.ahead ln i back, max < entry.1) :
    ∃ scan', h.gathered key1 key2 max (ln :: back) i scan = some scan' ∧
      scan'.result = scan.result ++ (((h.ahead ln i back).takeWhile fun entry => entry.1 ≤ max).filter
        fun entry => key1 ≤ entry.1 ∧ entry.1 ≤ key2).map Prod.snd ∧
      scan'.keysResult = scan.keysResult ++ (((h.ahead ln i back).takeWhile fun entry => entry.1 ≤ max).filter
        fun entry => key1 ≤ entry.1 ∧ entry.1 ≤ key2).map Prod.fst := by
  induction back generalizing ln i scan with
  | nil =>
    obtain ⟨entry, mem, large⟩ := ends
    simp only [Heap.ahead, flatMap_nil, append_nil] at mem ⊢
    have some : ¬ i + (h.low max ln i).length ≥ h.count ln :=
      fun all => absurd ((low_all inside).mp all entry mem) (by omega)
    rw [Heap.gathered, if_neg some]
    exact ⟨_, rfl, rfl, rfl⟩
  | cons next back ih =>
    by_cases all : i + (h.low max ln i).length ≥ h.count ln
    · have whole : (h.addressed ln).drop i = h.low max ln i := by
        grind [Heap.low, takeWhile_eq_self_iff, low_all]
      have split : h.ahead ln i (next :: back) = h.low max ln i ++ h.ahead next 0 back := by
        simp [Heap.ahead, whole]
      have taken : (h.ahead ln i (next :: back)).takeWhile (fun entry => entry.1 ≤ max) =
          h.low max ln i ++ (h.ahead next 0 back).takeWhile fun entry => entry.1 ≤ max := by
        grind [takeWhile_append_of_pos, low_all]
      have later : ∃ entry ∈ h.ahead next 0 back, max < entry.1 := by
        grind [low_all]
      obtain ⟨scan', run, result, keys⟩ := ih (Nat.zero_le _) _ later
      rw [Heap.gathered, if_pos all]
      refine ⟨scan', run, ?_, ?_⟩
      · rw [result, taken, filter_append, map_append, ← append_assoc]
        rfl
      · rw [keys, taken, filter_append, map_append, ← append_assoc]
        rfl
    · have taken : (h.ahead ln i (next :: back)).takeWhile (fun entry => entry.1 ≤ max) = h.low max ln i := by
        grind [Heap.ahead, takeWhile_append, Heap.low, Heap.addressed, slots_length]
      rw [Heap.gathered, if_neg all, taken]
      exact ⟨_, rfl, rfl, rfl⟩

theorem filter_takeWhile_range {β : Type} {entries : List (Int × β)} (sorted : (entries.map Prod.fst).Pairwise (· < ·))
    (most : hi ≤ bound) :
    ((entries.takeWhile fun entry => entry.1 ≤ bound).filter fun entry => lo ≤ entry.1 ∧ entry.1 ≤ hi) =
      entries.filter fun entry => lo ≤ entry.1 ∧ entry.1 ≤ hi := by
  induction entries with
  | nil => rfl
  | cons entry rest ih =>
    grind [pairwise_cons, takeWhile_cons_of_pos, takeWhile_cons_of_neg, filter_eq_nil_iff]

theorem RepBut.addressed_keys (rep : Rep t y) (mem : leaf ∈ y.nodes 0) :
    (t.heap.addressed leaf).map Prod.fst = y.keys leaf := by
  rw [← (rep.lies 0 leaf mem id).1.2, Heap.addressed, slots_map]
  rfl

theorem RepBut.entriesInOrder_eq (rep : Rep t y) : t.entriesInOrder = (y.nodes 0).flatMap t.heap.addressed := by
  rw [BplusTree.entriesInOrder, rep.leaves_eq]

theorem RepBut.entriesInOrder_keys (rep : Rep t y) : t.entriesInOrder.map Prod.fst = y.leafKeys := by
  rw [rep.entriesInOrder_eq, map_flatMap]
  exact flatMap_congr fun leaf mem => rep.addressed_keys mem

theorem RepBut.entriesInOrder_length (rep : Rep t y) (sizes : t.entries ≤ BPLUS_MAX_ENTRIES) :
    t.entriesInOrder.length ≤ t.heap.next * BPLUS_MAX_ENTRIES := by
  have each : ∀ size ∈ (y.nodes 0).map fun leaf => (t.heap.addressed leaf).length, size ≤ BPLUS_MAX_ENTRIES := by
    intro size present
    obtain ⟨leaf, mem, rfl⟩ := mem_map.mp present
    rw [Heap.addressed, slots_length]
    exact (rep.leafSized mem id).2.1.trans sizes
  have total := sum_le_card_nsmul _ _ each
  rw [length_map, Nat.nsmul_eq_mul] at total
  rw [rep.entriesInOrder_eq, length_flatMap]
  exact total.trans (Nat.mul_le_mul_right _ (rep.nodes_le_next 0))

theorem RepBut.entriesInOrder_split (rep : Rep t y) (leaves : y.nodes 0 = front ++ leaf :: back)
    (covers : y.Covers leaf bound) :
    ∃ before, t.entriesInOrder = before ++ t.heap.ahead leaf (t.heap.leafPlace leaf bound) back ∧
      ∀ entry ∈ before, entry.1 < bound := by
  have mem : leaf ∈ y.nodes 0 := leaves ▸ mem_append_right front mem_cons_self
  refine ⟨front.flatMap t.heap.addressed ++ (t.heap.addressed leaf).take (t.heap.leafPlace leaf bound), ?_, ?_⟩
  · grind [entriesInOrder_eq, Heap.ahead, take_append_drop]
  · intro entry present
    rcases mem_append.mp present with earlier | own
    · obtain ⟨other, place, inside⟩ := mem_flatMap.mp earlier
      have known : other ∈ y.nodes 0 := leaves ▸ mem_append_left _ place
      have ordered := rep.valid.nodes_ordered (Nat.zero_le y.level)
      rw [leaves, pairwise_append] at ordered
      refine ordered.2.2 other place leaf mem_cons_self entry.1 bound ((rep.valid.leaf known).covers ?_) covers
      grind [addressed_keys]
    · refine (rep.leafPlace mem bound).below entry.1 ?_
      rw [← rep.addressed_keys mem, ← map_take]
      exact mem_map_of_mem own

theorem RepBut.leaves_linked (rep : Rep t y) (leaves : y.nodes 0 = front ++ leaf :: back) :
    (leaf :: back).map (fun leaf => t.heap.links.next (.node leaf)) = back.map .node ++ [.head 0] ∧
      ∀ other ∈ leaf :: back, 0 < t.heap.count other := by
  constructor
  · have ring := rep.rings 0 (by decide)
    rw [leaves, map_append] at ring
    obtain ⟨as, last, left⟩ : ∃ as last, Link.head 0 :: front.map .node = as ++ [last] :=
      ⟨_, _, (dropLast_append_getLast (cons_ne_nil _ _)).symm⟩
    have behind := (ring.gap left rfl).2.2.1
    simpa [Function.comp_def] using behind
  · intro other present
    exact (rep.leafSized (leaves ▸ mem_append_right front present) id).1

def Heap.gatheredFrom (h : Heap) (key1 key2 max : Int) (leaf : Addr) (place : Nat) (back : List Addr)
    (scan : RangeScan) : Option RangeScan :=
  if place ≥ h.count leaf then h.gathered key1 key2 max back 0 scan
  else h.gathered key1 key2 max (leaf :: back) place scan

theorem RepBut.scan_eq (rep : Rep t y) (sizes : t.entries ≤ BPLUS_MAX_ENTRIES)
    (leaves : y.nodes 0 = front ++ leaf :: back) (covers : y.Covers leaf lo) (key1 key2 max : Int) (scan : RangeScan) :
    ((t.heap.scanFrom leaf lo).bind fun start =>
        t.heap.scanLeaves key1 key2 max (t.heap.next * BPLUS_MAX_ENTRIES + 1) start.1 start.2 scan) =
      t.heap.gatheredFrom key1 key2 max leaf (t.heap.leafPlace leaf lo) back scan := by
  obtain ⟨linked, filled⟩ := rep.leaves_linked leaves
  obtain ⟨before, split, -⟩ := rep.entriesInOrder_split leaves covers
  have size := rep.entriesInOrder_length sizes
  have room : (t.heap.ahead leaf (t.heap.leafPlace leaf lo) back).length ≤ t.heap.next * BPLUS_MAX_ENTRIES + 1 := by
    rw [split, length_append] at size
    omega
  by_cases behind : t.heap.leafPlace leaf lo ≥ t.heap.count leaf
  · rw [Heap.gatheredFrom, if_pos behind]
    simp only [Heap.scanFrom, if_pos behind, Heap.listNextEntry]
    cases back with
    | nil =>
      grind [Heap.gathered]
    | cons next back =>
      grind [scanLeaves_eq_gathered, Heap.ahead]
  · grind [Heap.gatheredFrom, Heap.scanFrom, scanLeaves_eq_gathered]

theorem ahead_behind (behind : place ≥ h.count leaf) : h.ahead leaf place back = back.flatMap h.addressed := by
  rw [Heap.ahead, drop_eq_nil_of_le (by rw [Heap.addressed, slots_length]; exact behind), nil_append]

theorem gatheredFrom_none {max : Int} (key1 key2 : Int) (scan : RangeScan)
    (small : ∀ entry ∈ h.ahead leaf place back, entry.1 ≤ max) :
    h.gatheredFrom key1 key2 max leaf place back scan = none := by
  by_cases behind : place ≥ h.count leaf
  · rw [Heap.gatheredFrom, if_pos behind]
    rw [ahead_behind behind] at small
    cases back with
    | nil => rfl
    | cons next back => exact gathered_none key1 key2 (Nat.zero_le _) scan (by simpa [Heap.ahead] using small)
  · grind [Heap.gatheredFrom, gathered_none]

theorem gatheredFrom_some {max : Int} (key1 key2 : Int) (scan : RangeScan)
    (ends : ∃ entry ∈ h.ahead leaf place back, max < entry.1) :
    ∃ scan', h.gatheredFrom key1 key2 max leaf place back scan = some scan' ∧
      scan'.result = scan.result ++ (((h.ahead leaf place back).takeWhile fun entry => entry.1 ≤ max).filter
        fun entry => key1 ≤ entry.1 ∧ entry.1 ≤ key2).map Prod.snd ∧
      scan'.keysResult = scan.keysResult ++ (((h.ahead leaf place back).takeWhile fun entry => entry.1 ≤ max).filter
        fun entry => key1 ≤ entry.1 ∧ entry.1 ≤ key2).map Prod.fst := by
  by_cases behind : place ≥ h.count leaf
  · rw [Heap.gatheredFrom, if_pos behind]
    rw [ahead_behind behind] at ends ⊢
    cases back with
    | nil => simp at ends
    | cons next back =>
      have same : (next :: back).flatMap h.addressed = h.ahead next 0 back := by simp [Heap.ahead]
      rw [same] at ends ⊢
      exact gathered_some key1 key2 (Nat.zero_le _) scan ends
  · rw [Heap.gatheredFrom, if_neg behind]
    exact gathered_some key1 key2 (by omega) scan ends

def queried (t : BplusTree) (root : Addr) (lo hi : Int) (vo : Rangevo) (scan : RangeScan) :
    Rangevo × List ItemPointerData × List Int :=
  ({ traverseHeight := (t.heap.border t.heap.rightNode hi t.level root 0 vo.rightvo).2.1
     leftvo := (t.heap.border t.heap.leftNode lo t.level root vo.traverseHeight.toNat vo.leftvo).2.2
     rightvo := (t.heap.border t.heap.rightNode hi t.level root 0 vo.rightvo).2.2
     data := scan.data ++ [scan.nodedata] }, scan.result, scan.keysResult)

theorem bplusTreeGetRangeDiskVo_eq (root : t.root = some top) (deep : 0 < t.level) (key1 key2 : Int) (vo : Rangevo) :
    bplusTreeGetRangeDiskVo t key1 key2 vo =
      ((t.heap.scanFrom (t.heap.walkDown t.heap.leftNode (min key1 key2) t.level top vo.traverseHeight.toNat
          vo.leftvo).1 (min key1 key2)).bind fun start =>
        t.heap.scanLeaves key1 key2 (max key1 key2) (t.heap.next * BPLUS_MAX_ENTRIES + 1) start.1 start.2
          ⟨[], vo.data, [], []⟩).map (queried t top (min key1 key2) (max key1 key2) vo) := by
  have least : (if key1 ≤ key2 then key1 else key2) = min key1 key2 := (min_def key1 key2).symm
  have most : (if min key1 key2 = key1 then key2 else key1) = max key1 key2 := by
    rw [max_def]
    simp only [min_eq_left_iff]
  simp only [bplusTreeGetRangeDiskVo, root, if_neg deep.ne', least, most, Heap.border, Option.bind_eq_bind,
    Option.map_bind]
  refine congrArg _ (funext fun start => ?_)
  rw [Function.comp_apply]
  cases t.heap.scanLeaves key1 key2 (max key1 key2) (t.heap.next * BPLUS_MAX_ENTRIES + 1) start.1 start.2
    ⟨[], vo.data, [], []⟩ <;> rfl

section

variable (rep : Rep t y) (orders : t.order ≤ BPLUS_MAX_ORDER) (sizes : t.entries ≤ BPLUS_MAX_ENTRIES)
    (deep : 0 < t.level)
include rep orders sizes deep

/-- The query runs behind the last leaf unless a key is above both bounds; else it returns the
entries between the bounds as they are given, in order. -/
theorem RepBut.range_answer (key1 key2 : Int) (guided : t.heap.Guided (min key1 key2) y.level y.root) (vo : Rangevo) :
    if ∃ entry ∈ t.entriesInOrder, max key1 key2 < entry.1 then ∃ vo', bplusTreeGetRangeDiskVo t key1 key2 vo =
        some (vo', (t.entriesInOrder.filter fun entry => key1 ≤ entry.1 ∧ entry.1 ≤ key2).map Prod.snd,
          (t.entriesInOrder.filter fun entry => key1 ≤ entry.1 ∧ entry.1 ≤ key2).map Prod.fst)
    else bplusTreeGetRangeDiskVo t key1 key2 vo = none := by
  obtain ⟨mem, covers⟩ := rep.walkDown_covers orders t.heap.leftNode rep.valid.root_mem
    (rep.valid.root_covers (min key1 key2)) guided vo.traverseHeight.toNat vo.leftvo
  rw [← rep.level] at mem covers
  rw [bplusTreeGetRangeDiskVo_eq rep.root deep]
  generalize (t.heap.walkDown t.heap.leftNode (min key1 key2) t.level y.root vo.traverseHeight.toNat vo.leftvo).1 = leaf
    at mem covers
  obtain ⟨front, back, leaves⟩ := append_of_mem mem
  obtain ⟨before, split, smaller⟩ := rep.entriesInOrder_split leaves covers
  rw [rep.scan_eq sizes leaves covers]
  have reach : (∃ entry ∈ t.entriesInOrder, max key1 key2 < entry.1) ↔
      ∃ entry ∈ t.heap.ahead leaf (t.heap.leafPlace leaf (min key1 key2)) back, max key1 key2 < entry.1 := by
    rw [split]
    constructor
    · grind
    · rintro ⟨entry, present, above⟩
      exact ⟨entry, mem_append_right before present, above⟩
  by_cases beyond : ∃ entry ∈ t.entriesInOrder, max key1 key2 < entry.1
  · rw [if_pos beyond]
    obtain ⟨scan, scanned, result, keys⟩ := gatheredFrom_some key1 key2 ⟨[], vo.data, [], []⟩ (reach.mp beyond)
    have sorted : (t.entriesInOrder.map Prod.fst).Pairwise (· < ·) :=
      rep.entriesInOrder_keys ▸ rep.valid.leafKeys_sorted
    rw [split, map_append, pairwise_append] at sorted
    have none : (before.filter fun entry => key1 ≤ entry.1 ∧ entry.1 ≤ key2) = [] := by
      grind [filter_eq_nil_iff]
    have found : ((t.heap.ahead leaf (t.heap.leafPlace leaf (min key1 key2)) back).takeWhile fun entry =>
        entry.1 ≤ max key1 key2).filter (fun entry => key1 ≤ entry.1 ∧ entry.1 ≤ key2) =
          t.entriesInOrder.filter fun entry => key1 ≤ entry.1 ∧ entry.1 ≤ key2 := by
      rw [split, filter_append, none, nil_append, filter_takeWhile_range sorted.2.1 (le_max_right key1 key2)]
    rw [found, nil_append] at result keys
    rw [scanned, ← result, ← keys]
    exact ⟨_, rfl⟩
  · grind [gatheredFrom_none]

end

end Reading

end BlockchainPG.Mbt
