import BlockchainPG.Mbt.Hash
import BlockchainPG.Mbt.RangeAnswers

/-! What the verification object of a range query covers. -/

namespace BlockchainPG.Mbt

open Lib Vo List Function

namespace Heap

/-- The node that insert's descent to a target reaches so many levels below a node. -/
def onPath (h : Heap) (target : Int) : Nat → Addr → Addr
  | 0, node => node
  | depth + 1, node => h.onPath target depth (h.childFor node target)

/-- The keys of a leaf with their strings. -/
def rows (h : Heap) (leaf : Addr) : List (Int × CString) :=
  slots (fun i => (h.key leaf i, h.data leaf i)) (h.count leaf)

/-- The strings of a leaf whose keys are inside a range. -/
def group (h : Heap) (lo hi : Int) (leaf : Addr) : List CString :=
  ((h.rows leaf).filter fun row => lo ≤ row.1 ∧ row.1 ≤ hi).map Prod.snd

end Heap

/-- No separator is zero, and the keys behind the separators are cleared. -/
structure PlainKeys (t : BplusTree) : Prop where
  nonzero : ∀ depth < t.level, ∀ node ∈ t.nodesAt depth, ∀ i < t.heap.count node - 1, t.heap.key node i ≠ 0
  cleared : ∀ depth < t.level, ∀ node ∈ t.nodesAt depth, ∀ i < BPLUS_MAX_ORDER,
    t.heap.count node - 1 ≤ i → t.heap.key node i = 0

/-- The object covers the nodes on both paths: the hashes of the children and entries in front of
the left path and behind the right one, and the strings between them, leaf by leaf. -/
structure BoundaryCovered (sha256Pg : CString → CString) (t : BplusTree) (root : Addr) (lo hi : Int)
    (vo : Rangevo) : Prop where
  height : vo.traverseHeight = t.level
  left : ∀ depth < t.level, ∃ before after,
    t.heap.children (t.heap.onPath lo depth root) = before ++ t.heap.onPath lo (depth + 1) root :: after ∧
      vo.leftvo depth = ⟨t.heap.nodeId (t.heap.onPath lo depth root), t.heap.count (t.heap.onPath lo depth root),
        before.map (t.digest sha256Pg (t.level - depth - 1))⟩
  right : ∀ depth < t.level, ∃ before after,
    t.heap.children (t.heap.onPath hi depth root) = before ++ t.heap.onPath hi (depth + 1) root :: after ∧
      vo.rightvo depth = ⟨t.heap.nodeId (t.heap.onPath hi depth root), t.heap.count (t.heap.onPath hi depth root),
        after.map (t.digest sha256Pg (t.level - depth - 1))⟩
  leftLeaf : vo.leftvo t.level =
    ⟨t.heap.nodeId (t.heap.onPath lo t.level root), t.heap.count (t.heap.onPath lo t.level root),
      ((t.heap.rows (t.heap.onPath lo t.level root)).filter fun row => row.1 < lo).map fun row => sha256Pg row.2⟩
  rightLeaf : vo.rightvo t.level =
    ⟨t.heap.nodeId (t.heap.onPath hi t.level root), t.heap.count (t.heap.onPath hi t.level root),
      ((t.heap.rows (t.heap.onPath hi t.level root)).filter fun row => hi < row.1).map fun row => sha256Pg row.2⟩
  data : ∃ before used later, t.nodesAt t.level = before ++ used ++ later ∧
    used.head? = some (t.heap.onPath lo t.level root) ∧ vo.data = used.map (t.heap.group lo hi) ∧
      ∀ leaf ∈ later, t.heap.group lo hi leaf = []

/-- Some key is above the range; the upper bound is a key or above all keys of its leaf; the leaf
of the lower bound has a key from it on, or no key is in the range. -/
@[mk_iff]
structure Coverable (t : BplusTree) (root : Addr) (lo hi : Int) : Prop where
  beyond : ∃ entry ∈ t.entriesInOrder, hi < entry.1
  upper : (∃ row ∈ t.heap.rows (t.heap.onPath hi t.level root), row.1 = hi) ∨
    ∀ row ∈ t.heap.rows (t.heap.onPath hi t.level root), row.1 < hi
  lower : (∃ row ∈ t.heap.rows (t.heap.onPath lo t.level root), lo ≤ row.1) ∨
    ∀ entry ∈ t.entriesInOrder, ¬ (lo ≤ entry.1 ∧ entry.1 ≤ hi)

section Paths

variable {t : BplusTree} {y : Shape} {h : Heap}

theorem nonzeroRun_spec (inside : i < nonzeroRun key) : i < BPLUS_MAX_ORDER ∧ key i ≠ 0 := by
  rw [nonzeroRun] at inside
  have first : (List.range BPLUS_MAX_ORDER).takeWhile (fun i => key i ≠ 0) <+: List.range BPLUS_MAX_ORDER :=
    takeWhile_prefix _
  have small := Nat.lt_of_lt_of_le inside first.length_le
  rw [length_range] at small
  have same : ((List.range BPLUS_MAX_ORDER).takeWhile fun i => key i ≠ 0)[i] = i := by
    rw [first.getElem]
    exact getElem_range _
  have nonzero := mem_takeWhile_imp (getElem_mem inside)
  rw [same] at nonzero
  exact ⟨small, by simpa using nonzero⟩

theorem RepBut.mem_nodesAt (rep : Rep t y) (mem : node ∈ y.nodes k) (low : k ≤ t.level) :
    node ∈ t.nodesAt (t.level - k) := by
  rw [rep.nodesAt_eq (by rw [← rep.level]; omega), ← rep.level, Nat.sub_sub_self low]
  exact mem

theorem PlainKeys.guided (plain : PlainKeys t) (rep : Rep t y) (mem : node ∈ y.nodes k)
    (covers : y.Covers node bound) : t.heap.Guided bound k node := by
  induction k generalizing node with
  | zero => trivial
  | succ k ih =>
    have low : k + 1 ≤ t.level := rep.level ▸ rep.valid.level_le mem
    have place := rep.mem_nodesAt mem low
    obtain ⟨holds, -⟩ := rep.lies (k + 1) node mem id
    obtain ⟨kid, inside⟩ := holds.childFor (rep.valid.inner mem) covers
    refine ⟨plain.nonzero _ (by omega) node place, fun i run behind => ?_, ih (rep.valid.kid_mem mem kid) inside⟩
    obtain ⟨small, nonzero⟩ := nonzeroRun_spec run
    exact absurd (plain.cleared _ (by omega) node place i small behind) nonzero

theorem branch_inside (sorted : (slots (h.key node) (h.count node - 1)).Pairwise (· < ·))
    (most : h.count node ≤ BPLUS_MAX_ORDER) (pos : 0 < h.count node)
    (nonzero : ∀ i < h.count node - 1, h.key node i ≠ 0)
    (larger : ∀ i < nonzeroRun (h.key node), h.count node - 1 ≤ i → bound < h.key node i) :
    h.branch node bound < h.count node := by
  have longer := le_nonzeroRun (by omega) nonzero
  have same := keyBinarySearch_longer sorted longer fun j more less => larger j less more
  obtain ⟨p, place, found⟩ := keyBinarySearch_spec sorted bound
  have inside := place.inside
  rw [slots_length] at inside
  rw [Heap.branch, same, found]
  by_cases mem : bound ∈ slots (h.key node) (h.count node - 1)
  · have here := (List.getElem?_eq_some_iff.mp ((place.mem_iff sorted).mp mem)).1
    rw [slots_length] at here
    simp only [if_pos mem]
    split <;> omega
  · simp only [if_neg mem]
    split <;> omega

theorem RepBut.walkDown_path (rep : Rep t y) (orders : t.order ≤ BPLUS_MAX_ORDER) (side : Addr → Nat → Nodevo)
    (mem : node ∈ y.nodes k) (covers : y.Covers node bound) (guided : t.heap.Guided bound k node) (height : Nat)
    (border : Nat → Nodevo) (empty : ∀ level ≥ height, (border level).nhash = []) :
    let walked := t.heap.walkDown side bound k node height border
    walked.1 = t.heap.onPath bound k node ∧ walked.2.1 = height + k ∧
      (∀ level, level < height ∨ height + k ≤ level → walked.2.2 level = border level) ∧
      ∀ depth < k, ∃ place < t.heap.count (t.heap.onPath bound depth node),
        t.heap.subPtr (t.heap.onPath bound depth node) place = t.heap.onPath bound (depth + 1) node ∧
          walked.2.2 (height + depth) = side (t.heap.onPath bound depth node) place := by
  induction k generalizing node height border with
  | zero => exact ⟨rfl, rfl, fun _ _ => rfl, fun depth low => absurd low (Nat.not_lt_zero depth)⟩
  | succ k ih =>
    obtain ⟨nonzero, larger, below⟩ := guided
    obtain ⟨holds, least, most, -⟩ := rep.lies (k + 1) node mem id
    have inner := rep.valid.inner mem
    have sorted : (slots (t.heap.key node) (t.heap.count node - 1)).Pairwise (· < ·) := holds.2.2.1 ▸ inner.1.1
    have count := holds.count
    obtain ⟨kid, inside⟩ := holds.childFor inner covers
    have next := branch_eq sorted (by omega) (by omega) nonzero larger
    have small := branch_inside sorted (by omega) (by omega) nonzero larger
    have noted : ∀ level ≥ height + 1, (note border height (side node (t.heap.branch node bound)) level).nhash =
      [] := by
      intro level high
      rw [note, update_of_ne (by omega)]
      exact empty level (by omega)
    obtain ⟨leaf, reached, others, path⟩ := ih (rep.valid.kid_mem mem kid) inside below (height + 1) _ noted
    intro walked
    have same : walked = t.heap.walkDown side bound k (t.heap.childFor node bound) (height + 1)
        (note border height (side node (t.heap.branch node bound))) := by
      rw [← next]
      rfl
    rw [same]
    refine ⟨leaf, by omega, ?_, ?_⟩
    · intro level outside
      rw [others level (by omega), note, update_of_ne (by omega)]
    · intro depth low
      cases depth with
      | zero =>
        refine ⟨_, small, next, (others height (by omega)).trans ?_⟩
        rw [note, update_self, empty height le_rfl, nil_append]
        rfl
      | succ depth =>
        obtain ⟨place, inside, child, node⟩ := path depth (by omega)
        refine ⟨place, inside, child, ?_⟩
        rw [show height + (depth + 1) = height + 1 + depth by omega]
        exact node

theorem RepBut.onPath_mem (rep : Rep t y) (mem : node ∈ y.nodes (k + depth)) (covers : y.Covers node bound) :
    t.heap.onPath bound depth node ∈ y.nodes k ∧ y.Covers (t.heap.onPath bound depth node) bound := by
  induction depth generalizing node with
  | zero => exact ⟨mem, covers⟩
  | succ depth ih =>
    obtain ⟨holds, -⟩ := rep.lies (k + depth + 1) node mem id
    obtain ⟨kid, inside⟩ := holds.childFor (rep.valid.inner mem) covers
    exact ih (rep.valid.kid_mem mem kid) inside

theorem RepBut.onPath_root (rep : Rep t y) (bound : Int) (low : depth ≤ t.level) :
    t.heap.onPath bound depth y.root ∈ t.nodesAt depth := by
  have same : y.level = (t.level - depth) + depth := by rw [← rep.level]; omega
  have mem := (rep.onPath_mem (same ▸ rep.valid.root_mem) (rep.valid.root_covers bound)).1
  have place := rep.mem_nodesAt mem (Nat.sub_le t.level depth)
  rwa [Nat.sub_sub_self low] at place

theorem RepBut.onPath_leaf (rep : Rep t y) (bound : Int) :
    t.heap.onPath bound t.level y.root ∈ y.nodes 0 ∧ y.Covers (t.heap.onPath bound t.level y.root) bound := by
  refine rep.onPath_mem ?_ (rep.valid.root_covers bound)
  rw [Nat.zero_add, rep.level]
  exact rep.valid.root_mem

theorem RepBut.border_path (rep : Rep t y) (orders : t.order ≤ BPLUS_MAX_ORDER) (plain : PlainKeys t)
    (side : Addr → Nat → Nodevo) (bound : Int) (border : Nat → Nodevo) (empty : ∀ level, (border level).nhash = []) :
    let noted := t.heap.border side bound t.level y.root 0 border
    noted.1 = t.heap.onPath bound t.level y.root ∧ noted.2.1 = t.level ∧
      (∀ depth < t.level, ∃ place < t.heap.count (t.heap.onPath bound depth y.root),
        t.heap.subPtr (t.heap.onPath bound depth y.root) place = t.heap.onPath bound (depth + 1) y.root ∧
          noted.2.2 depth = side (t.heap.onPath bound depth y.root) place) ∧
      noted.2.2 t.level = side (t.heap.onPath bound t.level y.root)
        (t.heap.leafPlace (t.heap.onPath bound t.level y.root) bound) := by
  have top : y.root ∈ y.nodes t.level := rep.level ▸ rep.valid.root_mem
  have guided := plain.guided rep top (rep.valid.root_covers bound)
  obtain ⟨leaf, reached, others, path⟩ := rep.walkDown_path orders side top (rep.valid.root_covers bound) guided 0
    border
    fun level _ => empty level
  have height : (t.heap.walkDown side bound t.level y.root 0 border).2.1 = t.level := reached.trans (Nat.zero_add _)
  simp only [Heap.border, leaf, height]
  refine ⟨trivial, trivial, fun depth low => ?_, ?_⟩
  · obtain ⟨place, inside, child, node⟩ := path depth low
    refine ⟨place, inside, child, ?_⟩
    rw [note, update_of_ne low.ne]
    simpa using node
  · rw [note, update_self, others t.level (by omega), empty t.level, nil_append]

end Paths

section Hashes

variable {t : BplusTree} {sha256Pg : CString → CString}

theorem children_split (h : Heap) (inside : place < h.count node) :
    h.children node = (h.children node).take place ++ h.subPtr node place :: (h.children node).drop (place + 1) := by
  have size : place < (h.children node).length := by rwa [Heap.children, slots_length]
  have here : (h.children node)[place] = h.subPtr node place := by simp [Heap.children]
  rw [← here, ← drop_eq_getElem_cons size, take_append_drop]

theorem range_map_take (f : Nat → α) (most : place ≤ n) : (List.range place).map f = (slots f n).take place := by
  rw [slots, ← map_take, take_range, min_eq_left most]

theorem range'_map_drop (f : Nat → α) (start n : Nat) :
    (range' start (n - start)).map f = (slots f n).drop start := by
  rw [slots, ← map_drop, range_eq_range', drop_range']
  simp

theorem Hashed.children (hashed : Hashed sha256Pg t) (low : depth < t.level) (mem : node ∈ t.nodesAt depth) :
    slots (t.heap.childhash node) (t.heap.count node) =
      (t.heap.children node).map (t.digest sha256Pg (t.level - depth - 1)) := by
  rw [Heap.children, slots_map]
  exact slots_congr (hashed.inner depth low node mem)

theorem Hashed.rows {leaf : Addr} (hashed : Hashed sha256Pg t) (mem : leaf ∈ t.nodesAt t.level) :
    slots (t.heap.childhash leaf) (t.heap.count leaf) = (t.heap.rows leaf).map fun row => sha256Pg row.2 := by
  rw [Heap.rows, slots_map]
  exact slots_congr (hashed.leaf leaf mem)

theorem leftNode_eq (h : Heap) (inside : place ≤ h.count node) :
    h.leftNode node place = ⟨h.nodeId node, h.count node, (slots (h.childhash node) (h.count node)).take place⟩ := by
  rw [Heap.leftNode, range_map_take _ inside]

theorem rightNode_eq (h : Heap) (node : Addr) (place : Nat) : h.rightNode node place =
      ⟨h.nodeId node, h.count node, (slots (h.childhash node) (h.count node)).drop (place + 1)⟩ := by
  rw [Heap.rightNode, range'_map_drop]

end Hashes

section Rows

variable {t : BplusTree} {y : Shape} {h : Heap} {β : Type} {rows : List (Int × β)} {front back : List Addr}

theorem PlaceOf.around (place : PlaceOf (rows.map Prod.fst) bound p) :
    (∀ row ∈ rows.take p, row.1 < bound) ∧ ∀ row ∈ rows.drop p, bound ≤ row.1 :=
  ⟨fun row mem => place.below row.1 (map_take ▸ mem_map_of_mem mem),
    fun row mem => place.above row.1 (map_drop ▸ mem_map_of_mem mem)⟩

theorem PlaceOf.filter_lt (place : PlaceOf (rows.map Prod.fst) bound p) :
    (rows.filter fun row => row.1 < bound) = rows.take p := by
  obtain ⟨front, back⟩ := place.around
  nth_rewrite 1 [← take_append_drop p rows]
  rw [filter_append, filter_eq_self.mpr (by simpa using front), filter_eq_nil_iff.mpr (by simpa using back), append_nil]

theorem PlaceOf.filter_ge (place : PlaceOf (rows.map Prod.fst) bound p) :
    (rows.filter fun row => bound ≤ row.1) = rows.drop p := by
  obtain ⟨front, back⟩ := place.around
  nth_rewrite 1 [← take_append_drop p rows]
  rw [filter_append, filter_eq_nil_iff.mpr (by simpa using front), filter_eq_self.mpr (by simpa using back), nil_append]

theorem RepBut.rows_keys (rep : Rep t y) (mem : leaf ∈ y.nodes 0) : (t.heap.rows leaf).map Prod.fst = y.keys leaf := by
  rw [← (rep.lies 0 leaf mem id).1.2, Heap.rows, slots_map]
  rfl

theorem RepBut.rows_place (rep : Rep t y) (mem : leaf ∈ y.nodes 0) (bound : Int) :
    PlaceOf ((t.heap.rows leaf).map Prod.fst) bound (t.heap.leafPlace leaf bound) :=
  rep.rows_keys mem ▸ rep.leafPlace mem bound

theorem RepBut.rows_sorted (rep : Rep t y) (mem : leaf ∈ y.nodes 0) :
    ((t.heap.rows leaf).map Prod.fst).Pairwise (· < ·) := rep.rows_keys mem ▸ (rep.valid.leaf mem).1

theorem PlaceOf.filter_gt (place : PlaceOf (rows.map Prod.fst) bound p) :
    (rows.filter fun row => bound < row.1) = (rows.drop p).filter fun row => bound < row.1 := by
  rw [← place.filter_ge, filter_filter]
  refine filter_congr fun row _ => ?_
  simp only [← Bool.decide_and, decide_eq_decide]
  omega

/-- The entries behind the place of a bound are those above it if the bound is a key or no entry
is above it; else the first of them is left out. -/
theorem PlaceOf.behind_iff (place : PlaceOf (rows.map Prod.fst) bound p)
    (sorted : (rows.map Prod.fst).Pairwise (· < ·)) (f : Int × β → γ) :
    (rows.drop (p + 1)).map f = (rows.filter fun row => bound < row.1).map f ↔
      (∃ row ∈ rows, row.1 = bound) ∨ ∀ row ∈ rows, row.1 < bound := by
  rw [place.filter_gt, ← drop_drop]
  cases rest : rows.drop p with
  | nil =>
    have all : ∀ row ∈ rows, row.1 < bound := by
      have whole := place.filter_ge
      rw [rest, filter_eq_nil_iff] at whole
      intro row mem
      simpa using whole row mem
    exact ⟨fun _ => Or.inr all, fun _ => rfl⟩
  | cons row later =>
    have own : row ∈ rows := mem_of_mem_drop (i := p) (rest ▸ mem_cons_self)
    have order : ((row :: later).map Prod.fst).Pairwise (· < ·) := by
      rw [← rest, map_drop]
      exact sorted.sublist (drop_sublist _ _)
    have least : bound ≤ row.1 := by
      have kept : row ∈ rows.filter fun row => bound ≤ row.1 := by
        rw [place.filter_ge, rest]
        exact mem_cons_self
      simpa using (mem_filter.mp kept).2
    have above : ∀ other ∈ later, row.1 < other.1 := fun other mem =>
      (pairwise_cons.mp order).1 other.1 (mem_map_of_mem mem)
    have passed : (later.filter fun row => bound < row.1) = later := by
      rw [filter_eq_self]
      intro other mem
      have := above other mem
      simpa using (by omega : bound < other.1)
    rw [drop_one, tail_cons, filter_cons, passed]
    rcases least.eq_or_lt with same | less
    · simp only [← same, lt_irrefl, decide_false, Bool.false_eq_true, ↓reduceIte, true_iff]
      exact Or.inl ⟨row, own, same.symm⟩
    · simp only [less, decide_true, ↓reduceIte]
      constructor
      · intro equal
        have := congrArg List.length equal
        simp at this
      · rintro (⟨other, mem, equal⟩ | all)
        · have kept : other ∈ rows.filter fun row => bound ≤ row.1 := mem_filter.mpr ⟨mem, by simp [equal]⟩
          rw [place.filter_ge, rest] at kept
          rcases mem_cons.mp kept with rfl | behind
          · omega
          · have := above other behind
            omega
        · have := all row own
          omega

def Heap.taken (h : Heap) (max : Int) (leaf : Addr) (i : Nat) : List CString :=
  (((h.rows leaf).drop i).takeWhile fun row => row.1 ≤ max).map Prod.snd

theorem taken_eq (h : Heap) (max : Int) (leaf : Addr) (i : Nat) :
    ((h.strings leaf).drop i).take (h.low max leaf i).length = h.taken max leaf i := by
  have strings : h.strings leaf = (h.rows leaf).map Prod.snd := by rw [Heap.rows, slots_map, Heap.strings]; rfl
  have keys : (h.addressed leaf).map Prod.fst = (h.rows leaf).map Prod.fst := by
    rw [Heap.rows, Heap.addressed, slots_map, slots_map]
    rfl
  have size : (h.low max leaf i).length = (((h.rows leaf).drop i).takeWhile fun row => row.1 ≤ max).length := by
    have same := congrArg (fun keys => ((keys.drop i).takeWhile fun key => key ≤ max).length) keys
    simp only [← map_drop, takeWhile_map, length_map] at same
    exact same
  rw [Heap.taken, size, strings, ← map_drop, ← map_take, ← prefix_iff_eq_take.mp ( takeWhile_prefix _)]

theorem rows_above {max : Int} (inside : i ≤ h.count ln) (stops : ¬ i + (h.low max ln i).length ≥ h.count ln) :
    ∃ row ∈ h.rows ln, max < row.1 := by
  rw [low_all inside] at stops
  push Not at stops
  obtain ⟨entry, mem, above⟩ := stops
  obtain ⟨j, less, rfl⟩ := mem_slots.mp (mem_of_mem_drop mem)
  exact ⟨_, mem_slots.mpr ⟨j, less, rfl⟩, above⟩

theorem gathered_groups {key1 key2 max : Int} {back : List Addr} {scan scan' : RangeScan} (inside : i ≤ h.count ln)
    (ran : h.gathered key1 key2 max (ln :: back) i scan = some scan') : ∃ others later, back = others ++ later ∧
      scan'.data ++ [scan'.nodedata] =
        scan.data ++ (scan.nodedata ++ h.taken max ln i) :: others.map (h.taken max · 0) ∧
      ∃ leaf ∈ ln :: others, ∃ row ∈ h.rows leaf, max < row.1 := by
  induction back generalizing ln i scan with
  | nil =>
    rw [Heap.gathered, taken_eq] at ran
    by_cases all : i + (h.low max ln i).length ≥ h.count ln
    · rw [if_pos all] at ran
      cases ran
    · rw [if_neg all, Option.some.injEq] at ran
      subst ran
      exact ⟨[], [], rfl, rfl, ln, mem_cons_self, rows_above inside all⟩
  | cons next back ih =>
    rw [Heap.gathered, taken_eq] at ran
    by_cases all : i + (h.low max ln i).length ≥ h.count ln
    · rw [if_pos all] at ran
      obtain ⟨others, later, split, groups, leaf, mem, row⟩ := ih (Nat.zero_le _) ran
      refine ⟨next :: others, later, by rw [split]; rfl, ?_, leaf, mem_cons_of_mem ln mem, row⟩
      rw [groups]
      simp [RangeScan.close, RangeScan.take]
    · rw [if_neg all, Option.some.injEq] at ran
      subst ran
      exact ⟨[], next :: back, rfl, rfl, ln, mem_cons_self, rows_above inside all⟩

theorem group_eq_taken {lo hi : Int} (place : PlaceOf ((h.rows leaf).map Prod.fst) lo p)
    (sorted : ((h.rows leaf).map Prod.fst).Pairwise (· < ·)) : h.group lo hi leaf = h.taken hi leaf p := by
  have order : (((h.rows leaf).drop p).map Prod.fst).Pairwise (· < ·) := by
    rw [map_drop]
    exact sorted.sublist (drop_sublist _ _)
  have self : (((h.rows leaf).drop p).takeWhile fun row => row.1 ≤ hi).filter (fun row => lo ≤ row.1 ∧ row.1 ≤ hi) =
      ((h.rows leaf).drop p).takeWhile fun row => row.1 ≤ hi := by
    rw [filter_eq_self]
    intro row mem
    have small := mem_takeWhile_imp mem
    have large := place.above row.1 (map_drop ▸ mem_map_of_mem ((takeWhile_sublist _).mem mem))
    simp only [decide_eq_true_eq] at small
    simpa using ⟨large, small⟩
  rw [filter_takeWhile_range order le_rfl, ← place.filter_ge, filter_filter] at self
  rw [Heap.group, Heap.taken, ← place.filter_ge, ← self]
  congr 1
  refine filter_congr fun row _ => ?_
  simp only [← Bool.decide_and, decide_eq_decide]
  omega

theorem RepBut.behind_above (rep : Rep t y) (leaves : y.nodes 0 = front ++ leaf :: back)
    (covers : y.Covers leaf bound) (later : other ∈ back) (mem : row ∈ t.heap.rows other) : bound < row.1 := by
  have known : other ∈ y.nodes 0 := leaves ▸ mem_append_right front (mem_cons_of_mem leaf later)
  have ordered := rep.valid.nodes_ordered (Nat.zero_le y.level)
  rw [leaves, pairwise_append, pairwise_cons] at ordered
  refine ordered.2.1.1 other later bound row.1 covers ((rep.valid.leaf known).covers ?_)
  rw [← rep.rows_keys known]
  exact mem_map_of_mem mem

theorem RepBut.behind_group (rep : Rep t y) (leaves : y.nodes 0 = front ++ leaf :: back)
    (covers : y.Covers leaf lo) (later : other ∈ back) (hi : Int) :
    t.heap.taken hi other 0 = t.heap.group lo hi other := by
  have known : other ∈ y.nodes 0 := leaves ▸ mem_append_right front (mem_cons_of_mem leaf later)
  refine (group_eq_taken ⟨Nat.zero_le _, by simp, fun key mem => ?_⟩ (rep.rows_sorted known)).symm
  rw [drop_zero] at mem
  obtain ⟨row, own, rfl⟩ := mem_map.mp mem
  exact (rep.behind_above leaves covers later own).le

/-- Behind the last key of the leaf of the lower bound, the range is empty just if the next key is
above it. -/
theorem RepBut.none_between_iff {next : Addr} (rep : Rep t y)
    (leaves : y.nodes 0 = front ++ leaf :: next :: back) (covers : y.Covers leaf lo)
    (behind : t.heap.leafPlace leaf lo ≥ t.heap.count leaf) (hi : Int) :
    (∀ entry ∈ t.entriesInOrder, ¬ (lo ≤ entry.1 ∧ entry.1 ≤ hi)) ↔ hi < t.heap.key next 0 := by
  obtain ⟨before, split, smaller⟩ := rep.entriesInOrder_split leaves covers
  have filled := (rep.leaves_linked leaves).2 next (by simp)
  have sorted : (t.entriesInOrder.map Prod.fst).Pairwise (· < ·) := rep.entriesInOrder_keys ▸ rep.valid.leafKeys_sorted
  have first : (t.heap.addressed next).drop 0 = _ := addressed_drop filled
  rw [drop_zero] at first
  rw [ahead_behind behind, flatMap_cons, first] at split
  have above : lo < t.heap.key next 0 := rep.behind_above leaves covers mem_cons_self (mem_slots.mpr ⟨0, filled, rfl⟩)
  constructor
  · intro none
    have := none (t.heap.key next 0, t.heap.tidAt next 0) (by rw [split]; simp)
    by_contra low
    exact this ⟨above.le, not_lt.mp low⟩
  · intro large entry mem range
    rw [split] at mem sorted
    rw [map_append, pairwise_append, cons_append, map_cons, pairwise_cons] at sorted
    rcases mem_append.mp mem with early | late
    · have := smaller entry early
      omega
    · rcases mem_cons.mp late with rfl | rest
      · exact absurd range.2 (not_le.mpr large)
      · have := sorted.2.1.1 entry.1 (mem_map_of_mem rest)
        omega

/-- The strings that the loop collected are grouped by leaf from the leaf of the lower bound on. -/
def Grouped (t : BplusTree) (leaf : Addr) (lo hi : Int) (data : List (List CString)) : Prop :=
  ∃ before used later, t.nodesAt t.level = before ++ used ++ later ∧ used.head? = some leaf ∧
    data = used.map (t.heap.group lo hi) ∧ ∀ other ∈ later, t.heap.group lo hi other = []

theorem RepBut.grouped (rep : Rep t y) (leaves : y.nodes 0 = front ++ leaf :: back)
    (covers : y.Covers leaf lo) (inside : t.heap.leafPlace leaf lo ≤ t.heap.count leaf)
    (ran : t.heap.gathered key1 key2 hi (leaf :: back) (t.heap.leafPlace leaf lo) ⟨[], [], [], []⟩ = some scan) :
    Grouped t leaf lo hi (scan.data ++ [scan.nodedata]) := by
  have mem : leaf ∈ y.nodes 0 := leaves ▸ mem_append_right front mem_cons_self
  obtain ⟨others, later, rfl, groups, stop, present, row, own, above⟩ := gathered_groups inside ran
  refine ⟨front, leaf :: others, later, ?_, rfl, ?_, ?_⟩
  · rw [rep.leaves_eq, leaves]
    simp
  · rw [groups, map_cons, nil_append, nil_append, group_eq_taken (rep.rows_place mem lo) (rep.rows_sorted mem)]
    congr 1
    exact map_congr_left fun other here =>
      rep.behind_group leaves covers (mem_append_left later here) hi
  · intro other behind
    have order := rep.valid.nodes_ordered (Nat.zero_le y.level)
    have split : y.nodes 0 = front ++ ((leaf :: others) ++ later) := by rw [leaves]; rfl
    rw [split, pairwise_append, pairwise_append] at order
    have known : other ∈ y.nodes 0 := by rw [split]; simp [behind]
    have before : stop ∈ y.nodes 0 := by rw [split]; exact mem_append_right _ (mem_append_left _ present)
    rw [Heap.group, map_eq_nil_iff, filter_eq_nil_iff]
    intro late belongs range
    have small : lo ≤ late.1 ∧ late.1 ≤ hi := by simpa using range
    have less := order.2.1.2.2 stop present other behind row.1 late.1
      ((rep.valid.leaf before).covers (rep.rows_keys before ▸ mem_map_of_mem own))
      ((rep.valid.leaf known).covers (rep.rows_keys known ▸ mem_map_of_mem belongs))
    omega

theorem RepBut.group_nil (rep : Rep t y) (none : ∀ entry ∈ t.entriesInOrder, ¬ (lo ≤ entry.1 ∧ entry.1 ≤ hi))
    (mem : leaf ∈ y.nodes 0) : t.heap.group lo hi leaf = [] := by
  rw [Heap.group, map_eq_nil_iff, filter_eq_nil_iff]
  intro row own range
  obtain ⟨i, inside, rfl⟩ := mem_slots.mp own
  refine none (t.heap.key leaf i, t.heap.tidAt leaf i) ?_ (by simpa using range)
  rw [rep.entriesInOrder_eq]
  exact mem_flatMap.mpr ⟨leaf, mem, mem_slots.mpr ⟨i, inside, rfl⟩⟩

theorem RepBut.grouped_iff (rep : Rep t y) (leaves : y.nodes 0 = front ++ leaf :: back) (covers : y.Covers leaf lo)
    (ran : t.heap.gatheredFrom key1 key2 hi leaf (t.heap.leafPlace leaf lo) back ⟨[], [], [], []⟩ = some scan) :
    Grouped t leaf lo hi (scan.data ++ [scan.nodedata]) ↔ (∃ row ∈ t.heap.rows leaf, lo ≤ row.1) ∨
      ∀ entry ∈ t.entriesInOrder, ¬ (lo ≤ entry.1 ∧ entry.1 ≤ hi) := by
  have mem : leaf ∈ y.nodes 0 := leaves ▸ mem_append_right front mem_cons_self
  have place := rep.rows_place mem lo
  have size : (t.heap.rows leaf).length = t.heap.count leaf := by rw [Heap.rows, slots_length]
  have own : (∃ row ∈ t.heap.rows leaf, lo ≤ row.1) ↔ t.heap.leafPlace leaf lo < t.heap.count leaf := by
    have kept := place.filter_ge
    constructor
    · rintro ⟨row, present, large⟩
      have : row ∈ (t.heap.rows leaf).drop (t.heap.leafPlace leaf lo) := by
        rw [← kept]
        exact mem_filter.mpr ⟨present, by simpa using large⟩
      have := length_pos_of_mem this
      rw [length_drop] at this
      omega
    · intro less
      have : (t.heap.rows leaf).drop (t.heap.leafPlace leaf lo) ≠ [] := by
        rw [ne_eq, drop_eq_nil_iff]
        omega
      obtain ⟨row, present⟩ := exists_mem_of_ne_nil _ this
      rw [← kept, mem_filter] at present
      exact ⟨row, present.1, by simpa using present.2⟩
  by_cases behind : t.heap.leafPlace leaf lo ≥ t.heap.count leaf
  · rw [Heap.gatheredFrom, if_pos behind] at ran
    rw [own, or_iff_right (by omega)]
    cases back with
    | nil => cases ran
    | cons next back =>
      rw [rep.none_between_iff leaves covers behind]
      have filled := (rep.leaves_linked leaves).2 next (by simp)
      have empty : t.heap.group lo hi leaf = [] := by
        rw [group_eq_taken place (rep.rows_sorted mem), Heap.taken, drop_eq_nil_of_le (by omega)]
        rfl
      constructor
      · rintro ⟨before, used, later, -, head, data, -⟩
        obtain ⟨others, _, -, groups, -⟩ := gathered_groups (Nat.zero_le _) ran
        obtain ⟨tail, rfl⟩ : ∃ tail, used = leaf :: tail := by
          cases used with
          | nil => cases head
          | cons first tail => exact ⟨tail, by rw [Option.some.inj head]⟩
        rw [groups, map_cons, empty] at data
        have none : t.heap.taken hi next 0 = [] := by simpa using (List.cons.inj data).1
        by_contra low
        have first : (t.heap.rows next).drop 0 = _ := drop_eq_getElem_cons (by rwa [Heap.rows, slots_length])
        rw [Heap.taken, first, takeWhile_cons_of_pos (by simpa [Heap.rows] using low)] at none
        cases none
      · intro above
        rw [gathered_stop filled (not_le.mpr above), Option.some.injEq] at ran
        subst ran
        refine ⟨front, [leaf], next :: back, ?_, rfl, by simp [empty], ?_⟩
        · rw [rep.leaves_eq, leaves]
          simp
        · intro other present
          refine rep.group_nil ((rep.none_between_iff leaves covers behind hi).mpr above) ?_
          exact leaves ▸ mem_append_right front (mem_cons_of_mem leaf present)
  · rw [Heap.gatheredFrom, if_neg behind] at ran
    refine iff_of_true (rep.grouped leaves covers (by omega) ran) (Or.inl (own.mpr (by omega)))

end Rows

section Covering

variable {t : BplusTree} {y : Shape} {sha256Pg : CString → CString}

theorem RepBut.leafPlace_le (rep : Rep t y) (mem : leaf ∈ y.nodes 0) (bound : Int) :
    t.heap.leafPlace leaf bound ≤ t.heap.count leaf := by
  have inside := (rep.rows_place mem bound).inside
  rwa [length_map, Heap.rows, slots_length] at inside

theorem RepBut.left_covered (rep : Rep t y) (orders : t.order ≤ BPLUS_MAX_ORDER) (plain : PlainKeys t)
    (hashed : Hashed sha256Pg t) (lo : Int) (border : Nat → Nodevo) (empty : ∀ level, (border level).nhash = []) :
    let noted := (t.heap.border t.heap.leftNode lo t.level y.root 0 border).2.2
    (∀ depth < t.level, ∃ before after,
      t.heap.children (t.heap.onPath lo depth y.root) = before ++ t.heap.onPath lo (depth + 1) y.root :: after ∧
        noted depth = ⟨t.heap.nodeId (t.heap.onPath lo depth y.root), t.heap.count (t.heap.onPath lo depth y.root),
          before.map (t.digest sha256Pg (t.level - depth - 1))⟩) ∧
    noted t.level = ⟨t.heap.nodeId (t.heap.onPath lo t.level y.root), t.heap.count (t.heap.onPath lo t.level y.root),
      ((t.heap.rows (t.heap.onPath lo t.level y.root)).filter fun row => row.1 < lo).map fun row =>
        sha256Pg row.2⟩ := by
  obtain ⟨-, -, path, leaf⟩ := rep.border_path orders plain t.heap.leftNode lo border empty
  constructor
  · intro depth low
    obtain ⟨place, inside, child, node⟩ := path depth low
    have split := children_split t.heap inside
    rw [child] at split
    refine ⟨_, _, split, ?_⟩
    rw [node, leftNode_eq _ inside.le, hashed.children low (rep.onPath_root lo low.le), map_take]
  · obtain ⟨mem, -⟩ := rep.onPath_leaf lo
    rw [leaf, leftNode_eq _ (rep.leafPlace_le mem lo), hashed.rows (rep.leaves_eq ▸ mem),
      (rep.rows_place mem lo).filter_lt, map_take]

theorem RepBut.right_covered (rep : Rep t y) (orders : t.order ≤ BPLUS_MAX_ORDER) (plain : PlainKeys t)
    (hashed : Hashed sha256Pg t) (hi : Int) (border : Nat → Nodevo) (empty : ∀ level, (border level).nhash = []) :
    let noted := (t.heap.border t.heap.rightNode hi t.level y.root 0 border).2.2
    (∀ depth < t.level, ∃ before after,
      t.heap.children (t.heap.onPath hi depth y.root) = before ++ t.heap.onPath hi (depth + 1) y.root :: after ∧
        noted depth = ⟨t.heap.nodeId (t.heap.onPath hi depth y.root), t.heap.count (t.heap.onPath hi depth y.root),
          after.map (t.digest sha256Pg (t.level - depth - 1))⟩) ∧
    (noted t.level = ⟨t.heap.nodeId (t.heap.onPath hi t.level y.root), t.heap.count (t.heap.onPath hi t.level y.root),
      ((t.heap.rows (t.heap.onPath hi t.level y.root)).filter fun row => hi < row.1).map fun row => sha256Pg row.2⟩ ↔
        (∃ row ∈ t.heap.rows (t.heap.onPath hi t.level y.root), row.1 = hi) ∨
          ∀ row ∈ t.heap.rows (t.heap.onPath hi t.level y.root), row.1 < hi) := by
  obtain ⟨-, -, path, leaf⟩ := rep.border_path orders plain t.heap.rightNode hi border empty
  constructor
  · intro depth low
    obtain ⟨place, inside, child, node⟩ := path depth low
    have split := children_split t.heap inside
    rw [child] at split
    refine ⟨_, _, split, ?_⟩
    rw [node, rightNode_eq, hashed.children low (rep.onPath_root hi low.le), map_drop]
  · obtain ⟨mem, -⟩ := rep.onPath_leaf hi
    rw [leaf, rightNode_eq, hashed.rows (rep.leaves_eq ▸ mem), Nodevo.mk.injEq, ← map_drop,
      ← (rep.rows_place mem hi).behind_iff (rep.rows_sorted mem) fun row => sha256Pg row.2]
    simp

theorem RepBut.covered_iff (rep : Rep t y) (orders : t.order ≤ BPLUS_MAX_ORDER)
    (sizes : t.entries ≤ BPLUS_MAX_ENTRIES) (hashed : Hashed sha256Pg t) (deep : 0 < t.level) (plain : PlainKeys t)
    (ordered : lo ≤ hi) (memory : Rangevo) :
    (∃ vo result keys, bplusTreeGetRangeDiskVo t lo hi (rangevoInit memory) = some (vo, result, keys) ∧
      BoundaryCovered sha256Pg t y.root lo hi vo) ↔ Coverable t y.root lo hi := by
  have empty : ∀ level, ((rangevoInit memory).leftvo level).nhash = [] := fun _ => rfl
  have emptyRight : ∀ level, ((rangevoInit memory).rightvo level).nhash = [] := fun _ => rfl
  obtain ⟨left, leftLeaf⟩ := rep.left_covered orders plain hashed lo _ empty
  obtain ⟨right, rightLeaf⟩ := rep.right_covered orders plain hashed hi _ emptyRight
  obtain ⟨mem, covers⟩ := rep.onPath_leaf lo
  obtain ⟨front, back, leaves⟩ := append_of_mem mem
  obtain ⟨before, split, smaller⟩ := rep.entriesInOrder_split leaves covers
  have query : bplusTreeGetRangeDiskVo t lo hi (rangevoInit memory) =
      (t.heap.gatheredFrom lo hi hi (t.heap.onPath lo t.level y.root)
        (t.heap.leafPlace (t.heap.onPath lo t.level y.root) lo) back ⟨[], [], [], []⟩).map
          (queried t y.root lo hi (rangevoInit memory)) := by
    have walked := (rep.border_path orders plain t.heap.leftNode lo (rangevoInit memory).leftvo empty).1
    have start := bplusTreeGetRangeDiskVo_eq rep.root deep lo hi (rangevoInit memory)
    rw [min_eq_left ordered, max_eq_right ordered] at start
    rw [start, ← rep.scan_eq sizes leaves covers, ← walked]
    rfl
  constructor
  · rintro ⟨vo, result, keys, found, covered⟩
    rw [query] at found
    obtain ⟨scan, ran, same⟩ := Option.map_eq_some_iff.mp found
    obtain rfl : (queried t y.root lo hi (rangevoInit memory) scan).1 = vo := congrArg Prod.fst same
    refine ⟨?_, rightLeaf.mp covered.rightLeaf, (rep.grouped_iff leaves covers ran).mp covered.data⟩
    by_contra none
    push Not at none
    rw [gatheredFrom_none lo hi _ fun entry present => none entry (split ▸ mem_append_right before present)] at ran
    cases ran
  · rintro ⟨⟨entry, present, above⟩, upper, lower⟩
    have ahead : entry ∈ t.heap.ahead (t.heap.onPath lo t.level y.root)
        (t.heap.leafPlace (t.heap.onPath lo t.level y.root) lo) back := by
      rw [split] at present
      refine (mem_append.mp present).resolve_left fun early => ?_
      have := smaller entry early
      omega
    obtain ⟨scan, ran, -, -⟩ := gatheredFrom_some lo hi ⟨[], [], [], []⟩ ⟨entry, ahead, above⟩
    refine ⟨_, _, _, by rw [query, ran]; rfl, ?_⟩
    have height := (rep.border_path orders plain t.heap.rightNode hi (rangevoInit memory).rightvo emptyRight).2.1
    exact ⟨congrArg Nat.cast height, left, right, leftLeaf, rightLeaf.mpr upper,
      (rep.grouped_iff leaves covers ran).mpr lower⟩

end Covering

/-- The object of a range query covers the two paths and what lies between them just under these
conditions on the tree and the bounds. -/
theorem boundaryCovered_iff (sha256Pg : CString → CString) (memory : Heap) (order entries : Nat)
    (orders : BPLUS_MIN_ORDER ≤ order ∧ order < BPLUS_MAX_ORDER) (sizes : 1 ≤ entries ∧ entries ≤ BPLUS_MAX_ENTRIES)
    (calls : List Put)
    (height : Meets put (fun t call => (put t call).level < BPLUS_MAX_LEVEL) (bplusTreeInit memory order entries) calls)
    (marks : Marks) (lo hi : Int) (ordered : lo ≤ hi) (room : Rangevo) :
    let t := (run put (bplusTreeInit memory order entries) calls).marked marks
    Hashed sha256Pg t → 0 < t.level → PlainKeys t → ∀ root ∈ t.root,
      ((∃ vo result keys, bplusTreeGetRangeDiskVo t lo hi (rangevoInit room) = some (vo, result, keys) ∧
        BoundaryCovered sha256Pg t root lo hi vo) ↔ Coverable t root lo hi) := by
  intro t hashed deep plain root top
  obtain ⟨sameOrder, sameEntries, content, stores, -⟩ := run_hasKeys memory ⟨orders.1, orders.2.le⟩ sizes height
  rcases stores with ⟨blank, -⟩ | ⟨y, rep, -⟩
  · exact absurd blank.level deep.ne'
  · have laid : Rep t y := rep.marked marks
    obtain rfl : y.root = root := Option.some.inj (laid.root.symm.trans top)
    exact laid.covered_iff (sameOrder.trans_le orders.2.le) (sameEntries.trans_le sizes.2) hashed deep plain
      ordered room

theorem run_hashed (sha256Pg : CString → CString) (memory : Heap)
    (orders : BPLUS_MIN_ORDER ≤ order ∧ order ≤ BPLUS_MAX_ORDER) (sizes : 1 ≤ entries ∧ entries ≤ BPLUS_MAX_ENTRIES)
    (height : Meets put (fun t call => (put t call).level < BPLUS_MAX_LEVEL) (bplusTreeInit memory order entries)
      calls) :
    let t := run put (bplusTreeInit memory order entries) calls
    Hashed sha256Pg (t.marked (hashMarks sha256Pg t)) := by
  intro t
  obtain ⟨-, -, content, stores, -⟩ := run_hasKeys memory orders sizes height
  rcases stores with ⟨blank, -⟩ | ⟨y, rep, -⟩
  · have level : (t.marked (hashMarks sha256Pg t)).level = 0 := blank.level
    refine ⟨fun depth low => absurd (level ▸ low) (Nat.not_lt_zero depth), fun leaf mem => ?_⟩
    rw [level, BplusTree.nodesAt, show (t.marked (hashMarks sha256Pg t)).root = none from blank.root] at mem
    cases mem
  · exact rep.hashcompute_hashed.2

instance (t : BplusTree) (root : Addr) (lo hi : Int) : Decidable (Coverable t root lo hi) :=
  decidable_of_iff _ (coverable_iff t root lo hi).symm

def eightKeys : BplusTree :=
  let t := run put (bplusTreeInit Heap.zeroed 7 2) (inserts [50, 30, 80, 10, 90, 20, 70, 60])
  t.marked (hashMarks firstChars t)

theorem boundaryCovered_eightKeys : ∃ vo result keys,
    bplusTreeGetRangeDiskVo eightKeys 25 60 (rangevoInit blankVo) = some (vo, result, keys) ∧
      BoundaryCovered firstChars eightKeys 2 25 60 vo := by
  have low : Meets put (fun t call => (put t call).level < BPLUS_MAX_LEVEL) (bplusTreeInit Heap.zeroed 7 2)
      (inserts [50, 30, 80, 10, 90, 20, 70, 60]) := by decide +kernel
  have hashed : Hashed firstChars eightKeys := run_hashed firstChars Heap.zeroed (by decide) (by decide) low
  have plain : PlainKeys eightKeys := ⟨by decide +kernel, by decide +kernel⟩
  exact (boundaryCovered_iff firstChars Heap.zeroed 7 2 (by decide) (by decide) _ low _ 25 60 (by decide) blankVo
    hashed (by decide +kernel) plain 2 (by decide +kernel)).mpr (by decide +kernel)

theorem BoundaryCovered.data_head (covered : BoundaryCovered sha256Pg t root lo hi vo) :
    vo.data.head? = some (t.heap.group lo hi (t.heap.onPath lo t.level root)) := by
  obtain ⟨_, used, _, -, head, data, -⟩ := covered.data
  rw [data, head?_map, head, Option.map_some]

def EightKeysCovered (lo hi : Int) : Prop := ∃ vo result keys,
  bplusTreeGetRangeDiskVo eightKeys lo hi (rangevoInit blankVo) = some (vo, result, keys) ∧
    BoundaryCovered firstChars eightKeys 2 lo hi vo

/-- Up to the greatest key there is no object; an upper bound in front of a key of its leaf loses
this key's hash; a lower bound behind its leaf loses the leaf's group. -/
theorem boundaries_uncovered : ¬ EightKeysCovered 25 90 ∧ ¬ EightKeysCovered 25 65 ∧ ¬ EightKeysCovered 35 60 := by
  refine ⟨?_, ?_, ?_⟩ <;> rintro ⟨vo, result, keys, found, covered⟩
  · have none : bplusTreeGetRangeDiskVo eightKeys 25 90 (rangevoInit blankVo) = none := by
      rw [← Option.not_isSome_iff_eq_none]
      decide +kernel
    cases none.symm.trans found
  · have leaf := congrArg (Option.map fun answer => answer.1.rightvo eightKeys.level) found
    rw [Option.map_some, covered.rightLeaf] at leaf
    exact absurd leaf (by decide +kernel)
  · have first := congrArg (Option.map fun answer => answer.1.data.head?) found
    rw [Option.map_some, covered.data_head] at first
    exact absurd first (by decide +kernel)

end BlockchainPG.Mbt
