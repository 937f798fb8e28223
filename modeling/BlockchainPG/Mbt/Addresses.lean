import BlockchainPG.Mbt.Pairing
import BlockchainPG.Mbt.RangeQuery

/-! Keys and the heap addresses that their slots point to. -/

namespace BlockchainPG.Mbt

open Lib Function List
open Heap hiding key

namespace Heap

def pointed (h : Heap) (leaf : Addr) : List (Int × Cell) :=
  slots (fun i => (h.key leaf i, h.tids leaf i)) (h.count leaf)

theorem addressed_eq (h : Heap) (leaf : Addr) : h.addressed leaf = (h.pointed leaf).map fun x => (x.1, h.cell x.2) := by
  rw [pointed, slots_map]
  rfl

theorem pointed_keys (h : Heap) (leaf : Addr) : (h.pointed leaf).map Prod.fst = slots (h.key leaf) (h.count leaf) :=
  slots_map ..

theorem pointed_congr {h h' : Heap} (count : h'.count a = h.count a) (key : h'.key a = h.key a)
    (tids : h'.tids a = h.tids a) : h'.pointed a = h.pointed a := by
  rw [pointed, pointed, count, key, tids]

/-- What tells leaves and their pointers. -/
def leafView (h : Heap) : (Addr → Int) × (Addr → Nat → Cell) × (Cell → ItemPointerData) × Addr :=
  (h.type, h.tids, h.cell, h.next)

def OwnCells (h : Heap) : Prop :=
  ∀ leaf < h.next, h.type leaf = BPLUS_TREE_LEAF → ∀ i, (h.tids leaf i).owner < h.next

/-- Work above the leaves: no leaf is new, and no pointer of a leaf moves. -/
structure KeepsLeaves (h h' : Heap) : Prop where
  tids : h'.tids = h.tids
  next : h.next ≤ h'.next
  leaves : ∀ a < h'.next, h'.type a = BPLUS_TREE_LEAF → a < h.next ∧ h.type a = BPLUS_TREE_LEAF

variable {h h' h'' : Heap}

theorem KeepsLeaves.of_view (same : h'.leafView = h.leafView) : KeepsLeaves h h' := by
  constructor <;> grind [leafView]

theorem KeepsLeaves.trans (first : KeepsLeaves h h') (second : KeepsLeaves h' h'') : KeepsLeaves h h'' where
  tids := second.tids.trans first.tids
  next := first.next.trans second.next
  leaves a known leaf := by
    obtain ⟨before, own⟩ := second.leaves a known leaf
    exact first.leaves a before own

theorem KeepsLeaves.ownCells (keeps : KeepsLeaves h h') (own : OwnCells h) : OwnCells h' := by
  intro a known leaf i
  obtain ⟨before, type⟩ := keeps.leaves a known leaf
  rw [keeps.tids]
  exact (own a before type i).trans_le keeps.next

theorem nonLeafNew_keepsLeaves (h : Heap) : KeepsLeaves h h.nonLeafNew.2 where
  tids := rfl
  next := Nat.le_succ _
  leaves a known leaf := by
    have other : a ≠ h.next := by
      rintro rfl
      simp [nonLeafNew, BPLUS_TREE_LEAF, BPLUS_TREE_NON_LEAF] at leaf
    rw [(nonLeafNew_allocates h).type a other] at leaf
    exact ⟨lt_of_le_of_ne (Nat.lt_succ_iff.mp known) other, leaf⟩

section Routines

variable {node left right lCh rCh parent : Addr} {key : Int} {insert index remove : Nat}

theorem setCount_leafView (n : Nat) : (h.setCount node n).leafView = h.leafView := rfl

theorem adopt_leafView (i : Nat) : (h.adopt node i lCh).leafView = h.leafView := rfl

theorem place_leafView (i : Nat) : (h.place node i lCh).leafView = h.leafView := rfl

theorem setKey_leafView (i : Nat) : (h.setKey node i key).leafView = h.leafView := rfl

theorem nodeDelete_leafView : (h.nodeDelete node).leafView = h.leafView := rfl

theorem replicateKids_leafView (split : Nat) :
    (h.replicateKids node left lCh rCh insert split).leafView = h.leafView := by
  refine forUp_frame (fun state : Nat × Heap => state.2.leafView) (fun i state => ?_) (0, h)
  split <;> rfl

theorem nonLeafSplitLeft_leafView : (h.nonLeafSplitLeft node left lCh rCh key insert).2.leafView = h.leafView := by
  have front : ∀ (h : Heap) split, (h.splitLeftFront node left lCh rCh key insert split).leafView = h.leafView := by
    intro h split
    simp only [splitLeftFront]
    split <;> exact replicateKids_leafView split
  simp only [nonLeafSplitLeft, setCount_leafView]
  exact (forUp_frame leafView (by intros; rfl) _).trans (front _ _)

theorem nonLeafSplitRight1_leafView : (h.nonLeafSplitRight1 node right lCh rCh key).2.leafView = h.leafView := by
  simp only [nonLeafSplitRight1, setCount_leafView]
  exact forUp_frame leafView (by intros; rfl) _

theorem nonLeafSplitRight2_leafView : (h.nonLeafSplitRight2 node right lCh rCh key insert).2.leafView = h.leafView := by
  simp only [nonLeafSplitRight2, adopt_leafView, setKey_leafView]
  split <;> exact gapLoop_frame leafView (by intros; rfl) _

theorem nonLeafSimpleInsert_leafView : (h.nonLeafSimpleInsert node lCh rCh key insert).leafView = h.leafView := by
  simp only [nonLeafSimpleInsert, setCount_leafView, place_leafView, setKey_leafView]
  exact forDown_frame leafView (by intros; rfl) _

theorem nonLeafShiftFromLeft_leafView :
    (h.nonLeafShiftFromLeft node left parent index remove).leafView = h.leafView := by
  simp only [nonLeafShiftFromLeft, setCount_leafView, adopt_leafView, setKey_leafView]
  exact forDown_frame leafView (by intros; rfl) _

theorem nonLeafMergeInt64ToLeft_leafView :
    (h.nonLeafMergeInt64ToLeft node left parent index remove).leafView = h.leafView := by
  simp only [nonLeafMergeInt64ToLeft, nodeDelete_leafView, setCount_leafView]
  refine forUp_frame (fun state : Nat × Heap => state.2.leafView) (fun i state => ?_) _
  split <;> rfl

theorem nonLeafShiftFromRight_leafView : (h.nonLeafShiftFromRight node right parent index).leafView = h.leafView := by
  simp only [nonLeafShiftFromRight, setCount_leafView]
  exact forUp_frame leafView (by intros; rfl) _

theorem nonLeafMergeFromRight_leafView : (h.nonLeafMergeFromRight node right parent index).leafView = h.leafView := by
  simp only [nonLeafMergeFromRight, nodeDelete_leafView, setCount_leafView]
  exact forUp_frame leafView (by intros; rfl) _

theorem nonLeafSimpleRemove_leafView : (h.nonLeafSimpleRemove node remove).leafView = h.leafView := by
  simp only [nonLeafSimpleRemove, setCount_leafView]
  exact forUp_frame leafView (by intros; rfl) _

end Routines

end Heap

section Frames

variable {t : BplusTree}

theorem parentNodeBuild_keepsLeaves
    (keeps : ∀ t node lCh rCh key, Heap.KeepsLeaves t.heap (call t node lCh rCh key).2.heap) (left right : Addr)
    (key : Int) : Heap.KeepsLeaves t.heap (parentNodeBuild call t left right key).2.heap := by
  rw [parentNodeBuild]
  split
  · exact (nonLeafNew_keepsLeaves t.heap).trans (Heap.KeepsLeaves.of_view rfl)
  · refine Heap.KeepsLeaves.trans ?_ (keeps _ _ left right key)
    exact Heap.KeepsLeaves.of_view rfl
  · refine Heap.KeepsLeaves.trans ?_ (keeps _ _ left right key)
    exact Heap.KeepsLeaves.of_view rfl

theorem nonLeafInsert_keepsLeaves (fuel : Nat) (t : BplusTree) (node lCh rCh : Addr) (key : Int) :
    Heap.KeepsLeaves t.heap (nonLeafInsert fuel t node lCh rCh key).2.heap := by
  induction fuel generalizing t node lCh rCh key with
  | zero => exact Heap.KeepsLeaves.of_view rfl
  | succ fuel ih =>
    unfold nonLeafInsert
    extract_lets found checked insert split sibling allocated cut
    have new : Heap.KeepsLeaves t.heap allocated :=
      (Heap.KeepsLeaves.of_view rfl : Heap.KeepsLeaves t.heap checked).trans (nonLeafNew_keepsLeaves _)
    have cuts : Heap.KeepsLeaves t.heap cut.2 := by
      grind [Heap.KeepsLeaves.trans, Heap.KeepsLeaves.of_view, nonLeafSplitLeft_leafView,
        nonLeafSplitRight1_leafView, nonLeafSplitRight2_leafView]
    split
    · split
      · exact cuts.trans (parentNodeBuild_keepsLeaves (t := { t with heap := cut.2 }) ih ..)
      · exact cuts.trans (parentNodeBuild_keepsLeaves (t := { t with heap := cut.2 }) ih ..)
    · exact Heap.KeepsLeaves.of_view nonLeafSimpleInsert_leafView

theorem nonLeafRemove_leafView (fuel : Nat) (t : BplusTree) (node : Addr) (remove : Nat) :
    (nonLeafRemove fuel t node remove).heap.leafView = t.heap.leafView := by
  induction fuel generalizing t node remove with
  | zero => rfl
  | succ fuel ih =>
    unfold nonLeafRemove
    extract_lets h i
    split
    · split
      · split
        · grind [nonLeafShiftFromLeft_leafView, nonLeafMergeInt64ToLeft_leafView]
        · grind [nonLeafShiftFromRight_leafView, nonLeafSimpleRemove_leafView, nonLeafMergeFromRight_leafView]
        · rfl
      · split
        · rfl
        · exact nonLeafSimpleRemove_leafView
    · exact nonLeafSimpleRemove_leafView

theorem bplusTreeDelete_leafView (t : BplusTree) (key : Int) :
    (bplusTreeDelete t key).2.heap.leafView = t.heap.leafView := by
  have remove : ∀ leaf, (leafRemove t leaf key).2.heap.leafView = t.heap.leafView := by
    intro leaf
    unfold leafRemove
    extract_lets h found remove i
    repeat' split
    all_goals first | rfl | exact nonLeafRemove_leafView ..
  rw [bplusTreeDelete]
  repeat' split
  · exact remove _
  · rfl
  · rfl

end Frames

/-- The cell that an insertion of a new key stores the address in: one of a new
leaf when the leaf is full, else the one that the slot at its place points to. -/
def writtenCell (t : BplusTree) (leaf : Addr) (p : Nat) : Cell :=
  if t.heap.count leaf = t.entries then
    if p < (t.entries + 1) / 2 then ⟨t.heap.next, p⟩ else ⟨t.heap.next, p - (t.entries + 1) / 2⟩
  else t.heap.tids leaf p

section Storing

variable {t : BplusTree} {y : Shape} {leaf : Addr} {p : Nat}

theorem Heap.eq_insertAt_pointed {h : Heap} {x : Int × Cell} {key : Int} {cell : Cell}
    (keys : x.1 = insertAt (h.key leaf) p key j) (cells : x.2 = insertAt (h.tids leaf) p cell j) :
    x = insertAt (fun i => (h.key leaf i, h.tids leaf i)) p (key, cell) j := by
  grind [insertAt]

theorem Heap.halves_pointed {h before h' : Heap} {sibling first second : Addr} {key : Int}
    (halves : LeafHalves before h' leaf sibling first second n cut (insertAt (h.key leaf) p key))
    (cells : CellHalves h h' leaf sibling first second n cut p fresh tid) (inside : cut ≤ n + 1) :
    h'.pointed first ++ h'.pointed second =
      slots (insertAt (fun i => (h.key leaf i, h.tids leaf i)) p (key, h.tids sibling fresh)) (n + 1) := by
  have lower : h'.pointed first =
      slots (insertAt (fun i => (h.key leaf i, h.tids leaf i)) p (key, h.tids sibling fresh)) cut := by
    rw [pointed, halves.firstCount]
    exact slots_congr fun i less => eq_insertAt_pointed (halves.firstKeys i less) (cells.first i less)
  have upper : h'.pointed second = slots (fun i =>
      insertAt (fun i => (h.key leaf i, h.tids leaf i)) p (key, h.tids sibling fresh) (cut + i)) (n + 1 - cut) := by
    rw [pointed, halves.secondCount]
    exact slots_congr fun i less => eq_insertAt_pointed (halves.secondKeys i less) (cells.second i less)
  rw [lower, upper, ← slots_drop, ← slots_take _ inside, take_append_drop]

theorem Heap.halves_others {h h' : Heap} {links : Links Link} {sibling first second : Addr} {keys : Nat → Int}
    (halves : LeafHalves { h with links := links } h' leaf sibling first second n cut keys)
    (cells : CellHalves h h' leaf sibling first second n cut p fresh tid) (notLeaf : a ≠ leaf) (notNew : a ≠ sibling) :
    h'.pointed a = h.pointed a :=
  pointed_congr (halves.touches.count a (not_or.mpr ⟨notLeaf, notNew⟩))
    (halves.touches.key a (not_or.mpr ⟨notLeaf, notNew⟩)) (cells.others a notLeaf notNew)

theorem leafStore_pointed (key : Int) (data : CString) (tid : ItemPointerData) (place : p ≤ t.heap.count leaf)
    (pos : 0 < t.heap.count leaf) (fresh : t.heap.leafNew.1 ≠ leaf) :
    (leafRun t leaf p).flatMap (leafStore t leaf key data tid p).pointed =
        (t.heap.pointed leaf).take p ++ (key, writtenCell t leaf p) :: (t.heap.pointed leaf).drop p ∧
      (∀ a ≠ leaf, a ≠ t.heap.leafNew.1 → (leafStore t leaf key data tid p).pointed a = t.heap.pointed a) ∧
      (leafStore t leaf key data tid p).cell = update t.heap.cell (writtenCell t leaf p) tid := by
  have inserted : slots (insertAt (fun i => (t.heap.key leaf i, t.heap.tids leaf i)) p (key, writtenCell t leaf p))
      (t.heap.count leaf + 1) = _ := slots_insertAt place _
  rw [Heap.pointed, ← inserted]
  have row : t.heap.leafNew.2.tids leaf = t.heap.tids leaf := update_of_ne fresh.symm ..
  have own : ∀ i, t.heap.leafNew.2.tids t.heap.leafNew.1 i = ⟨t.heap.next, i⟩ := fun i =>
    congrFun (update_self ..) i
  have others : ∀ a ≠ t.heap.leafNew.1, t.heap.leafNew.2.pointed a = t.heap.pointed a := fun a other =>
    pointed_congr rfl rfl (update_of_ne other ..)
  by_cases full : t.heap.count leaf = t.entries
  · have kept : t.heap.leafNew.2.count leaf = t.entries := full
    by_cases early : p < (t.entries + 1) / 2
    · obtain ⟨halves, cells⟩ := leafSplitLeft_halves (h := t.heap.leafNew.2) key data tid fresh pos
        (by rwa [kept])
      have joined := halves_pointed halves cells (by omega)
      have written := cells.cell
      rw [row, own, kept] at joined
      rw [own] at written
      simp only [leafRun, leafStore, writtenCell, full, early, ↓reduceIte, flatMap_cons, flatMap_nil, append_nil]
      exact ⟨joined, fun a notLeaf notNew => (halves_others halves cells notLeaf notNew).trans (others a notNew),
        written⟩
    · obtain ⟨halves, cells⟩ := leafSplitRight_halves (h := t.heap.leafNew.2) key data tid fresh
        (by rw [kept]; exact not_lt.mp early) place
      have joined := halves_pointed halves cells (by omega)
      have written := cells.cell
      rw [row, own, kept] at joined
      rw [own, kept] at written
      simp only [leafRun, leafStore, writtenCell, full, early, ↓reduceIte, flatMap_cons, flatMap_nil, append_nil]
      exact ⟨joined, fun a notLeaf notNew => (halves_others halves cells notLeaf notNew).trans (others a notNew),
        written⟩
  · obtain ⟨keys, strings, cells, keyRow, -, cellRow, -, same⟩ := leafSimpleInsert_eq key data tid place
    simp only [leafRun, leafStore, writtenCell, full, ↓reduceIte, flatMap_singleton]
    rw [same]
    refine ⟨?_, fun a other _ => ?_, rfl⟩
    · simp only [Heap.pointed, update_self]
      exact slots_congr fun i less => eq_insertAt_pointed (keyRow i less) (cellRow i less)
    · grind [pointed_congr]

theorem Heap.OwnCells.rows {h h' : Heap} (own : OwnCells h) (leaf new : Addr) (next : h.next ≤ h'.next)
    (kept : ∀ a ≠ leaf, a ≠ new → h'.tids a = h.tids a)
    (leaves : ∀ a < h'.next, a ≠ new → h'.type a = BPLUS_TREE_LEAF → a < h.next ∧ h.type a = BPLUS_TREE_LEAF)
    (rows : ∀ a, a = leaf ∨ a = new → ∀ i, (h'.tids a i).owner < h'.next) : OwnCells h' := by
  intro a known type i
  by_cases own' : a = leaf ∨ a = new
  · exact rows a own' i
  · obtain ⟨notLeaf, notNew⟩ := not_or.mp own'
    obtain ⟨before, leafType⟩ := leaves a known notNew type
    rw [kept a notLeaf notNew]
    exact (own a before leafType i).trans_le next

theorem leafStore_ownCells (own : t.heap.OwnCells) (known : leaf < t.heap.next)
    (type : t.heap.type leaf = BPLUS_TREE_LEAF) (key : Int) (data : CString) (tid : ItemPointerData)
    (place : p ≤ t.heap.count leaf) (pos : 0 < t.heap.count leaf) :
    (leafStore t leaf key data tid p).OwnCells := by
  have fresh : t.heap.leafNew.1 ≠ leaf := Nat.ne_of_gt known
  have row : t.heap.leafNew.2.tids leaf = t.heap.tids leaf := update_of_ne fresh.symm ..
  have newRow : ∀ i, t.heap.leafNew.2.tids t.heap.leafNew.1 i = ⟨t.heap.next, i⟩ := fun i =>
    congrFun (update_self ..) i
  have leaves : ∀ a < t.heap.leafNew.2.next, a ≠ t.heap.leafNew.1 → t.heap.leafNew.2.type a = BPLUS_TREE_LEAF →
      a < t.heap.next ∧ t.heap.type a = BPLUS_TREE_LEAF := by
    intro a below other leafType
    rw [(leafNew_allocates t.heap).type a other] at leafType
    exact ⟨lt_of_le_of_ne (Nat.lt_succ_iff.mp below) other, leafType⟩
  have old : ∀ j, (t.heap.tids leaf j).owner < t.heap.next + 1 := fun j =>
    (own leaf known type j).trans (Nat.lt_succ_self _)
  by_cases full : t.heap.count leaf = t.entries
  · have kept : t.heap.leafNew.2.count leaf = t.entries := full
    have cells : ∀ {cell : Cell} {i : Nat}, (cell = t.heap.leafNew.2.tids t.heap.leafNew.1 i ∨
        ∃ j, cell = t.heap.leafNew.2.tids leaf j) → cell.owner < t.heap.next + 1 := by
      rintro _ i (rfl | ⟨j, rfl⟩)
      · rw [newRow]
        exact Nat.lt_succ_self _
      · rw [row]
        exact old j
    by_cases early : p < (t.entries + 1) / 2
    · obtain ⟨keys, strings, cellRow, -, -, origin, same⟩ := leafSplitLeft_eq (h := t.heap.leafNew.2) key data tid
        fresh pos (by rwa [kept])
      simp only [leafStore, full, early, ↓reduceIte]
      rw [same]
      refine own.rows leaf t.heap.leafNew.1 (Nat.le_succ _) (fun a notLeaf notNew => ?_) leaves ?_
      · simp only [update_of_ne notLeaf, update_of_ne notNew]
        exact update_of_ne notNew ..
      · rintro a (rfl | rfl) i
        · simp only [update_self]
          rw [moveDown_apply]
          exact cells (i := 0) (Or.inr (ite_origin _))
        · simp only [update_of_ne fresh, update_self]
          exact cells (origin i)
    · obtain ⟨keys, strings, cellRow, -, -, -, origin, same⟩ := leafSplitRight_eq (h := t.heap.leafNew.2)
        key data tid t.heap.leafNew.1 (by rw [kept]; exact not_lt.mp early) place
      simp only [leafStore, full, early, ↓reduceIte]
      rw [same]
      refine own.rows leaf t.heap.leafNew.1 (Nat.le_succ _) (fun a notLeaf notNew => ?_) leaves ?_
      · simp only [update_of_ne notNew]
        exact update_of_ne notNew ..
      · rintro a (rfl | rfl) i
        · simp only [update_of_ne fresh.symm, row]
          exact old i
        · simp only [update_self]
          exact cells (origin i)
  · obtain ⟨keys, strings, cellRow, -, -, -, origin, same⟩ := leafSimpleInsert_eq key data tid place
    simp only [leafStore, full, ↓reduceIte]
    rw [same]
    refine own.rows leaf leaf le_rfl (fun a other _ => update_of_ne other ..)
      (fun a below _ leafType => ⟨below, leafType⟩) ?_
    rintro a (rfl | rfl) i
    all_goals
      obtain ⟨j, value⟩ := origin i
      simp only [update_self, value]
      exact own _ known type j

theorem leafInsert_keepsLeaves (rep : Rep t y) (mem : leaf ∈ y.nodes 0) (place : PlaceOf (y.keys leaf) key p)
    (absent : key ∉ y.keys leaf) (data : CString) (tid : ItemPointerData) :
    Heap.KeepsLeaves (leafStore t leaf key data tid p) (leafInsert t leaf key data tid).2.heap := by
  have row := (rep.lies 0 leaf mem id).1.2
  obtain ⟨q, other, result⟩ := keyBinarySearch_spec (row ▸ (rep.valid.leaf mem).1) key
  rw [row] at other result
  obtain rfl := other.unique place
  rw [if_neg absent] at result
  have negative : ¬(-(q : Int) - 1 ≥ 0) := by omega
  have insert : (-(-(q : Int) - 1) - 1).toNat = q := by omega
  simp only [leafInsert, leafStore, result, negative, ↓reduceIte, insert]
  split
  · split
    · exact parentNodeBuild_keepsLeaves (t := { t with heap := _ }) (nonLeafInsert_keepsLeaves _) ..
    · exact parentNodeBuild_keepsLeaves (t := { t with heap := _ }) (nonLeafInsert_keepsLeaves _) ..
  · exact Heap.KeepsLeaves.of_view rfl

end Storing

def BplusTree.pointers (t : BplusTree) : List (Int × Cell) := (t.nodesAt t.level).flatMap t.heap.pointed

/-- The tree is laid out well, and no pointer leads out of the memory it has. -/
structure Sound (t : BplusTree) : Prop where
  laid : ∃ content, Stores t content
  own : t.heap.OwnCells

section Sound

variable {t : BplusTree} {y : Shape} {leaf : Addr} {key : Int} {p : Nat}

theorem BplusTree.entriesInOrder_eq (t : BplusTree) :
    t.entriesInOrder = t.pointers.map fun x => (x.1, t.heap.cell x.2) := by
  rw [entriesInOrder, pointers, map_flatMap]
  exact flatMap_congr fun leaf _ => addressed_eq t.heap leaf

theorem BplusTree.mem_entriesInOrder :
    (key, tid) ∈ t.entriesInOrder ↔ ∃ cell, (key, cell) ∈ t.pointers ∧ t.heap.cell cell = tid := by
  grind [entriesInOrder_eq]

theorem RepBut.pointers_keys (rep : Rep t y) : t.pointers.map Prod.fst = y.leafKeys := by
  rw [BplusTree.pointers, rep.leaves_eq, map_flatMap]
  exact flatMap_congr fun leaf mem => (pointed_keys ..).trans (rep.lies 0 leaf mem id).1.2

theorem RepBut.pointer_unique (rep : Rep t y) (one : (key, first) ∈ t.pointers)
    (other : (key, second) ∈ t.pointers) : first = second := by
  have distinct : (t.pointers.map Prod.fst).Nodup := by
    rw [rep.pointers_keys]
    exact rep.valid.leafKeys_sorted.imp fun less => less.ne
  exact congrArg Prod.snd (inj_on_of_nodup_map distinct one other rfl)

theorem Blank.pointers (blank : Blank t) : t.pointers = [] := by
  rw [BplusTree.pointers, blank.level, BplusTree.nodesAt, blank.root]
  rfl

theorem Stores.put (stores : Stores t content) (call : Put) (height : (put t call).level < BPLUS_MAX_LEVEL) :
    ∃ after, Stores (put t call) after := by
  classical
  grind [put, bplusTreePut, keysOf, insert_present, delete_present, insert_absent, delete_absent]

theorem Stores.insert_ownCells (stores : Stores t content) (own : t.heap.OwnCells) (key : Int) (data : CString)
    (tid : ItemPointerData) : (bplusTreeInsert t key data tid).2.heap.OwnCells := by
  rcases stores with ⟨blank, -⟩ | ⟨y, rep, -⟩
  · rw [bplusTreeInsert, blank.root]
    intro a below leafType i
    by_cases new : a = t.heap.next
    · subst new
      show (t.heap.leafNew.2.tids t.heap.leafNew.1 i).owner < _
      rw [show t.heap.leafNew.2.tids t.heap.leafNew.1 i = ⟨t.heap.next, i⟩ from congrFun (update_self ..) i]
      exact below
    · have before : a < t.heap.next := lt_of_le_of_ne (Nat.lt_succ_iff.mp below) new
      have type : t.heap.type a = BPLUS_TREE_LEAF := ((leafNew_allocates t.heap).type a new).symm.trans leafType
      have row : t.heap.leafNew.2.tids a = t.heap.tids a := update_of_ne new ..
      show (t.heap.leafNew.2.tids a i).owner < t.heap.next + 1
      rw [row]
      exact (own a before type i).trans (Nat.lt_succ_self _)
  · obtain ⟨leaf, p, targets⟩ := rep.targets key
    by_cases present : key ∈ y.leafKeys
    · rw [bplusTreeInsert_present rep present]
      exact own
    · have absent : key ∉ y.keys leaf := fun mem => present ((targets.mem_iff rep).mpr mem)
      obtain ⟨holds, least, -⟩ := rep.lies 0 leaf targets.mem id
      have place : p ≤ t.heap.count leaf := holds.leafCount ▸ targets.place.inside
      have pos : 0 < t.heap.count leaf := holds.leafCount ▸ least
      have same : bplusTreeInsert t key data tid = leafInsert t leaf key data tid := by
        simp only [bplusTreeInsert, rep.root, targets.found]
      rw [same]
      exact (leafInsert_keepsLeaves rep targets.mem targets.place absent data tid).ownCells
        (leafStore_ownCells own (rep.fresh 0 leaf targets.mem) holds.1 key data tid place pos)

theorem Sound.put (sound : Sound t) (call : Put) (height : (put t call).level < BPLUS_MAX_LEVEL) :
    Sound (put t call) := by
  obtain ⟨⟨content, stores⟩, own⟩ := sound
  refine ⟨stores.put call height, ?_⟩
  rw [Mbt.put, bplusTreePut]
  split
  · exact stores.insert_ownCells own call.key call.data call.tid
  · exact (Heap.KeepsLeaves.of_view (bplusTreeDelete_leafView t call.key)).ownCells own

theorem insert_pointers (rep : Rep t y) (targets : Targets t y key leaf p) (absent : key ∉ y.leafKeys) (data : CString)
    (tid : ItemPointerData) (height : (bplusTreeInsert t key data tid).2.level < BPLUS_MAX_LEVEL) :
    let t' := (bplusTreeInsert t key data tid).2
    (∀ x, x ∈ t'.pointers ↔ x = (key, writtenCell t leaf p) ∨ x ∈ t.pointers) ∧
      t'.heap.cell = update t.heap.cell (writtenCell t leaf p) tid := by
  intro t'
  have fresh : ∀ k, t.heap.leafNew.1 ∉ y.nodes k := rep.outside
  have other : t.heap.leafNew.1 ≠ leaf := (ne_of_mem_of_not_mem targets.mem (fresh 0)).symm
  obtain ⟨holds, least, -⟩ := rep.lies 0 leaf targets.mem id
  obtain ⟨here, others, cells⟩ := leafStore_pointed key data tid (holds.leafCount ▸ targets.place.inside)
    (holds.leafCount ▸ least) other
  obtain ⟨⟨y', rep', nodes, -⟩, kept⟩ := (bplusTreeInsert_absent rep targets absent data tid).2 height
  have rows : ∀ a ∈ y'.nodes 0, t'.heap.pointed a = (leafStore t leaf key data tid p).pointed a := by
    intro a mem
    rw [nodes] at mem
    exact pointed_congr (kept.rows a mem).1 (kept.rows a mem).2
      (congrFun (congrArg (fun payload => payload.2.1) kept.payload) a)
  constructor
  · intro x
    rw [BplusTree.pointers, BplusTree.pointers, rep'.leaves_eq, rep.leaves_eq, flatMap_congr rows, nodes,
      leafRun_flatMap rep.valid targets.mem _ here fun a mem ne =>
        others a ne (ne_of_mem_of_not_mem mem (fresh 0))]
    exact mem_flatMap_insert targets.mem p _
  · exact (congrArg (fun payload => payload.2.2) kept.payload).trans cells

end Sound

/-- How many keys of a leaf are less than a key. -/
def Heap.rank (h : Heap) (leaf : Addr) (key : Int) : Nat := (slots (h.key leaf) (h.count leaf)).countP (· < key)

/-- The leaf for a key is full, or the slot at its place points to a cell that no
entry has an address in, unless it is the same address. -/
def BplusTree.Unshared (t : BplusTree) (key : Int) (tid : ItemPointerData) : Prop :=
  ∀ leaf ∈ t.leafFor key, t.heap.count leaf = t.entries ∨
    ∀ x ∈ t.pointers, x.2 = t.heap.tids leaf (t.heap.rank leaf key) → t.heap.cell x.2 = tid

/-- The key is the last one of a leaf that is the root or more than half full. -/
def BplusTree.EndsLeaf (t : BplusTree) (key : Int) : Prop :=
  ∀ leaf ∈ t.leafFor key, t.heap.key leaf (t.heap.count leaf - 1) = key ∧
    (t.root = some leaf ∨ (t.entries + 1) / 2 < t.heap.count leaf)

section Entries

variable {t : BplusTree} {y : Shape} {leaf : Addr} {key : Int} {p : Nat} {tid : ItemPointerData}

theorem Targets.rank (targets : Targets t y key leaf p) (rep : Rep t y) : t.heap.rank leaf key = p := by
  rw [Heap.rank, (rep.lies 0 leaf targets.mem id).1.2]
  exact targets.place.countP_eq

theorem RepBut.pointer_known (rep : Rep t y) (own : t.heap.OwnCells) (mem : x ∈ t.pointers) :
    x.2.owner < t.heap.next := by
  rw [BplusTree.pointers, rep.leaves_eq] at mem
  obtain ⟨leaf, present, inside⟩ := mem_flatMap.mp mem
  obtain ⟨i, -, rfl⟩ := mem_slots.mp inside
  exact own leaf (rep.fresh 0 leaf present) (rep.lies 0 leaf present id).1.1 i

theorem Targets.unshared_iff (targets : Targets t y key leaf p) (rep : Rep t y) (own : t.heap.OwnCells) :
    t.Unshared key tid ↔ ∀ x ∈ t.pointers, x.2 = writtenCell t leaf p → t.heap.cell x.2 = tid := by
  have here : t.Unshared key tid ↔ t.heap.count leaf = t.entries ∨
      ∀ x ∈ t.pointers, x.2 = t.heap.tids leaf p → t.heap.cell x.2 = tid := by
    simp only [BplusTree.Unshared, targets.leafFor rep, Option.mem_def, Option.some.injEq, forall_eq', targets.rank rep]
  rw [here]
  by_cases full : t.heap.count leaf = t.entries
  · refine iff_of_true (Or.inl full) fun x mem same => ?_
    have known := rep.pointer_known own mem
    grind [writtenCell]
  · rw [or_iff_right full, writtenCell, if_neg full]

theorem insert_entries (rep : Rep t y) (own : t.heap.OwnCells) (absent : key ∉ y.leafKeys) (data : CString)
    (tid : ItemPointerData) (height : (bplusTreeInsert t key data tid).2.level < BPLUS_MAX_LEVEL) :
    let after := (bplusTreeInsert t key data tid).2.entriesInOrder
    (key, tid) ∈ after ∧ (t.Unshared key tid ↔ ∀ x ∈ t.entriesInOrder, x ∈ after) ∧
      (t.Unshared key tid → ∀ x ∈ after, x = (key, tid) ∨ x ∈ t.entriesInOrder) := by
  intro after
  obtain ⟨leaf, p, targets⟩ := rep.targets key
  obtain ⟨pointers, cells⟩ := insert_pointers rep targets absent data tid height
  have members : ∀ other address, (other, address) ∈ after ↔ ∃ cell,
      ((other, cell) = (key, writtenCell t leaf p) ∨ (other, cell) ∈ t.pointers) ∧
        update t.heap.cell (writtenCell t leaf p) tid cell = address := by
    intro other address
    rw [← cells, BplusTree.mem_entriesInOrder]
    exact exists_congr fun cell => and_congr_left' (pointers _)
  rw [targets.unshared_iff rep own]
  refine ⟨(members ..).mpr ⟨_, Or.inl rfl, update_self ..⟩, ⟨?_, ?_⟩, ?_⟩
  · grind [BplusTree.mem_entriesInOrder]
  · rintro kept ⟨other, cell⟩ present same
    obtain ⟨cell', place, value⟩ := (members other _).mp (kept (other, t.heap.cell cell)
      (BplusTree.mem_entriesInOrder.mpr ⟨cell, present, rfl⟩))
    grind [RepBut.pointer_unique]
  · grind [BplusTree.mem_entriesInOrder]

theorem insert_blank_entries (blank : Blank t) (key : Int) (data : CString) (tid : ItemPointerData) :
    (bplusTreeInsert t key data tid).2.entriesInOrder = [(key, tid)] := by
  obtain ⟨-, rep, -⟩ := bplusTreeInsert_blank blank key data tid
  rw [rep.entriesInOrder_eq]
  simp [Layout.single, bplusTreeInsert, blank.root, Heap.addressed, Heap.tidAt, Heap.setCount, Heap.setData,
    Heap.writeTid, Heap.setKey, slots]

theorem mem_append_of_nodup (distinct : ((front ++ entry :: back).map Prod.fst).Nodup) (x : Int × ItemPointerData) :
    x ∈ front ++ back ↔ x ∈ front ++ entry :: back ∧ x.1 ≠ entry.1 := by
  rw [map_append, map_cons, nodup_middle, nodup_cons, ← map_append] at distinct
  grind

theorem Heap.leafSimpleRemove_last (h : Heap) (leaf : Addr) (pos : 0 < h.count leaf) :
    let h' := h.leafSimpleRemove leaf (h.count leaf - 1)
    h.addressed leaf = h'.addressed leaf ++ [(h.key leaf (h.count leaf - 1), h.tidAt leaf (h.count leaf - 1))] ∧
      ∀ a ≠ leaf, h'.addressed a = h.addressed a := by
  intro h'
  have rows : h'.key = h.key := by simp [h', leafSimpleRemove, setCount, shiftLeft, forUp_empty]
  have tids : h'.tidAt = h.tidAt := rfl
  constructor
  · have count : h'.count leaf = h.count leaf - 1 := update_self ..
    rw [addressed, addressed, rows, tids, count, ← slots_succ, Nat.sub_add_cancel pos]
  · intro a other
    have count : h'.count a = h.count a := update_of_ne other ..
    rw [addressed, addressed, rows, tids, count]

theorem delete_entries (rep : Rep t y) (present : key ∈ y.leafKeys) (ends : t.EndsLeaf key)
    (x : Int × ItemPointerData) :
    x ∈ (bplusTreeDelete t key).2.entriesInOrder ↔ x ∈ t.entriesInOrder ∧ x.1 ≠ key := by
  obtain ⟨leaf, p, targets⟩ := rep.targets key
  have mem := targets.mem
  have own : key ∈ y.keys leaf := (targets.mem_iff rep).mp present
  obtain ⟨holds, least, -⟩ := rep.lies 0 leaf mem id
  have pos : 0 < t.heap.count leaf := holds.leafCount ▸ least
  obtain ⟨last, calm⟩ := ends leaf (targets.leafFor rep)
  rw [rep.root, Option.some.injEq] at calm
  have sorted := (rep.valid.leaf mem).1
  -- the search ends at the last slot
  have slot : p = t.heap.count leaf - 1 := by
    have here := (targets.place.mem_iff sorted).mp own
    have there : (y.keys leaf)[t.heap.count leaf - 1]? = some key := by
      rw [← holds.2, slots_getElem?, if_pos (by omega), last]
    grind [getElem?_inj, List.Pairwise.imp]
  have distinct : (t.entriesInOrder.map Prod.fst).Nodup := by
    rw [t.entriesInOrder_eq, map_map]
    show (t.pointers.map Prod.fst).Nodup
    rw [rep.pointers_keys]
    exact rep.valid.leafKeys_sorted.imp fun less => less.ne
  obtain ⟨row, others⟩ := t.heap.leafSimpleRemove_last leaf pos
  rw [bplusTreeDelete_eq rep targets]
  by_cases lone : leaf = y.root ∧ t.heap.count leaf = 1
  · obtain ⟨-, blank, -⟩ := leafRemove_last rep lone.1 mem own lone.2
    have alone := (rootLeaf_alone rep.valid lone.1 mem).2
    have only : t.entriesInOrder = [(key, t.heap.tidAt leaf 0)] := by
      rw [rep.entriesInOrder_eq, alone, flatMap_singleton, Heap.addressed, lone.2]
      rw [lone.2] at last
      simp [slots, ← last]
    grind [BplusTree.entriesInOrder_eq, Blank.pointers]
  · have easy : (t.entries + 1) / 2 < t.heap.count leaf ∨ (leaf = y.root ∧ t.heap.count leaf ≠ 1) := by
      grind
    obtain ⟨value, rep'⟩ := leafRemove_simple rep mem targets.place own easy
    rw [slot] at value rep'
    obtain ⟨front, back, list⟩ := append_of_mem mem
    have outside : ∀ a ∈ front ++ back, a ≠ leaf := by
      rintro a inside rfl
      have distinct := rep.valid.nodup 0
      grind
    have before : front.flatMap (t.heap.leafSimpleRemove leaf (t.heap.count leaf - 1)).addressed =
        front.flatMap t.heap.addressed :=
      flatMap_congr fun a inside => others a (outside a (mem_append_left _ inside))
    have behind : back.flatMap (t.heap.leafSimpleRemove leaf (t.heap.count leaf - 1)).addressed =
        back.flatMap t.heap.addressed :=
      flatMap_congr fun a inside => others a (outside a (mem_append_right _ inside))
    have nodes : (y.setKeys leaf ((y.keys leaf).eraseIdx (t.heap.count leaf - 1))).nodes 0 = front ++
      leaf :: back := list
    have after : (leafRemove t leaf key).2.entriesInOrder =
        (front.flatMap t.heap.addressed ++ (t.heap.leafSimpleRemove leaf (t.heap.count leaf - 1)).addressed leaf) ++
          back.flatMap t.heap.addressed := by
      grind [RepBut.entriesInOrder_eq]
    have whole : t.entriesInOrder =
        (front.flatMap t.heap.addressed ++ (t.heap.leafSimpleRemove leaf (t.heap.count leaf - 1)).addressed leaf) ++
          (key, t.heap.tidAt leaf (t.heap.count leaf - 1)) :: back.flatMap t.heap.addressed := by
      grind [RepBut.entriesInOrder_eq]
    rw [after, whole]
    exact mem_append_of_nodup (whole ▸ distinct) x

theorem BplusTree.leafKeys_eq (t : BplusTree) : t.leafKeys = t.entriesInOrder.map Prod.fst := by
  rw [t.entriesInOrder_eq, map_map, leafKeys, pointers, map_flatMap]
  exact flatMap_congr fun leaf _ => (pointed_keys t.heap leaf).symm

theorem RepBut.leafKeys_tree (rep : Rep t y) : t.leafKeys = y.leafKeys := by
  rw [t.leafKeys_eq, t.entriesInOrder_eq, map_map]
  exact rep.pointers_keys

theorem Blank.entriesInOrder (blank : Blank t) : t.entriesInOrder = [] := by
  rw [t.entriesInOrder_eq, blank.pointers]
  rfl

theorem Sound.insert_present (sound : Sound t) (present : key ∈ t.leafKeys) (data : CString) (tid : ItemPointerData) :
    bplusTreeInsert t key data tid = (-1, t) := by
  obtain ⟨⟨content, ⟨blank, -⟩ | ⟨y, rep, -⟩⟩, -⟩ := sound
  · rw [t.leafKeys_eq, blank.entriesInOrder] at present
    exact absurd present not_mem_nil
  · rw [rep.leafKeys_tree] at present
    exact bplusTreeInsert_present rep present data tid

theorem Sound.insert_absent (sound : Sound t) (absent : key ∉ t.leafKeys) (data : CString) (tid : ItemPointerData)
    (height : (bplusTreeInsert t key data tid).2.level < BPLUS_MAX_LEVEL) :
    let after := (bplusTreeInsert t key data tid).2.entriesInOrder
    (key, tid) ∈ after ∧ (t.Unshared key tid ↔ ∀ x ∈ t.entriesInOrder, x ∈ after) ∧
      (t.Unshared key tid → ∀ x ∈ after, x = (key, tid) ∨ x ∈ t.entriesInOrder) := by
  intro after
  obtain ⟨⟨content, ⟨blank, -⟩ | ⟨y, rep, -⟩⟩, own⟩ := sound
  · grind [insert_blank_entries, BplusTree.Unshared, BplusTree.leafFor, Blank.root, Blank.entriesInOrder]
  · grind [RepBut.leafKeys_tree, insert_entries]

theorem Sound.delete_absent (sound : Sound t) (absent : key ∉ t.leafKeys) : bplusTreeDelete t key = (-1, t) := by
  obtain ⟨⟨content, ⟨blank, -⟩ | ⟨y, rep, -⟩⟩, -⟩ := sound
  · rw [bplusTreeDelete, blank.root]
  · rw [rep.leafKeys_tree] at absent
    exact bplusTreeDelete_absent rep absent

theorem Sound.delete_last (sound : Sound t) (ends : t.EndsLeaf key) (present : key ∈ t.leafKeys)
    (x : Int × ItemPointerData) :
    x ∈ (bplusTreeDelete t key).2.entriesInOrder ↔ x ∈ t.entriesInOrder ∧ x.1 ≠ key := by
  obtain ⟨⟨content, ⟨blank, -⟩ | ⟨y, rep, -⟩⟩, -⟩ := sound
  · rw [t.leafKeys_eq, blank.entriesInOrder] at present
    exact absurd present not_mem_nil
  · rw [rep.leafKeys_tree] at present
    exact delete_entries rep present ends x

end Entries

/-- Insertions of present keys, deletions of absent ones, insertions that share no
cell with another address, and deletions at the end of a leaf that is not merged. -/
def KeepsAddresses (t : BplusTree) (call : Put) : Prop :=
  if call.data ≠ zeroString then call.key ∈ t.leafKeys ∨ t.Unshared call.key call.tid
  else call.key ∉ t.leafKeys ∨ t.EndsLeaf call.key

instance (t : BplusTree) (key : Int) (tid : ItemPointerData) : Decidable (t.Unshared key tid) :=
  inferInstanceAs (Decidable (∀ leaf ∈ t.leafFor key, _ ∨ ∀ x ∈ t.pointers, _ → _))

instance (t : BplusTree) (key : Int) : Decidable (t.EndsLeaf key) :=
  inferInstanceAs (Decidable (∀ leaf ∈ t.leafFor key, _ ∧ (_ ∨ _)))

instance (t : BplusTree) (call : Put) : Decidable (KeepsAddresses t call) :=
  inferInstanceAs (Decidable (if call.data ≠ zeroString then _ ∨ _ else _ ∨ _))

/-- The address of the last insertion of each key that found it missing and that no deletion followed. -/
def lastAddress (stored : Int → Option ItemPointerData) (call : Put) : Int → Option ItemPointerData :=
  if call.data = zeroString then update stored call.key none
  else if stored call.key = none then update stored call.key (some call.tid)
  else stored

/-- The leaves hold the addresses that were inserted. -/
structure Addressed (t : BplusTree) (stored : Int → Option ItemPointerData) : Prop where
  sound : Sound t
  entries : ∀ key tid, stored key = some tid ↔ (key, tid) ∈ t.entriesInOrder

section Addressed

variable {t : BplusTree} {stored : Int → Option ItemPointerData}

theorem Addressed.mem_leafKeys (addressed : Addressed t stored) (key : Int) : key ∈ t.leafKeys ↔ stored key ≠ none := by
  rw [t.leafKeys_eq, mem_map, Option.ne_none_iff_exists']
  constructor
  · rintro ⟨⟨_, tid⟩, mem, rfl⟩
    exact ⟨tid, (addressed.entries _ tid).mpr mem⟩
  · rintro ⟨tid, own⟩
    exact ⟨(key, tid), (addressed.entries key tid).mp own, rfl⟩

theorem Addressed.insert (addressed : Addressed t stored) (call : Put) (inserts : call.data ≠ zeroString)
    (height : (put t call).level < BPLUS_MAX_LEVEL) (keeps : KeepsAddresses t call) (key : Int)
    (tid : ItemPointerData) :
    lastAddress stored call key = some tid ↔ (key, tid) ∈ (put t call).entriesInOrder := by
  have call' : put t call = (bplusTreeInsert t call.key call.data call.tid).2 := by
    rw [put, bplusTreePut, if_pos inserts]
  rw [call'] at height ⊢
  rw [KeepsAddresses, if_pos inserts] at keeps
  rw [lastAddress, if_neg inserts]
  by_cases present : call.key ∈ t.leafKeys
  · rw [if_neg ((addressed.mem_leafKeys _).mp present), addressed.sound.insert_present present]
    exact addressed.entries key tid
  · have missing : stored call.key = none := not_not.mp (mt (addressed.mem_leafKeys _).mpr present)
    obtain ⟨new, unshared, only⟩ := addressed.sound.insert_absent present call.data call.tid height
    grind [entries]

theorem Addressed.delete (addressed : Addressed t stored) (call : Put) (deletes : ¬call.data ≠ zeroString)
    (keeps : KeepsAddresses t call) (key : Int) (tid : ItemPointerData) :
    lastAddress stored call key = some tid ↔ (key, tid) ∈ (put t call).entriesInOrder := by
  have call' : put t call = (bplusTreeDelete t call.key).2 := by rw [put, bplusTreePut, if_neg deletes]
  rw [KeepsAddresses, if_neg deletes] at keeps
  rw [call', lastAddress, if_pos (not_not.mp deletes)]
  by_cases present : call.key ∈ t.leafKeys
  · rw [addressed.sound.delete_last (keeps.resolve_left fun absent => absent present) present, ← addressed.entries]
    grind
  · have missing : stored call.key = none := not_not.mp (mt (addressed.mem_leafKeys _).mpr present)
    rw [addressed.sound.delete_absent present, ← missing, update_eq_self]
    exact addressed.entries key tid

theorem Addressed.put (addressed : Addressed t stored) (call : Put) (height : (put t call).level < BPLUS_MAX_LEVEL)
    (keeps : KeepsAddresses t call) : Addressed (put t call) (lastAddress stored call) := by
  refine ⟨addressed.sound.put call height, fun key tid => ?_⟩
  grind [insert, delete]

theorem bplusTreeInit_sound (memory : Heap) (orders : BPLUS_MIN_ORDER ≤ order ∧ order ≤ BPLUS_MAX_ORDER)
    (sizes : 1 ≤ entries ∧ entries ≤ BPLUS_MAX_ENTRIES) :
    Sound (bplusTreeInit { memory with next := 0 } order entries) :=
  ⟨⟨∅, Or.inl ⟨bplusTreeInit_blank _ orders sizes, rfl⟩⟩, fun _ known => absurd known (Nat.not_lt_zero _)⟩

end Addressed

theorem run_addressed (memory : Heap) (orders : BPLUS_MIN_ORDER ≤ order ∧ order ≤ BPLUS_MAX_ORDER)
    (sizes : 1 ≤ entries ∧ entries ≤ BPLUS_MAX_ENTRIES)
    (meets : Meets put (fun t call => KeepsAddresses t call ∧ (put t call).level < BPLUS_MAX_LEVEL)
      (bplusTreeInit { memory with next := 0 } order entries) calls) :
    Addressed (run put (bplusTreeInit { memory with next := 0 } order entries) calls)
      (run lastAddress (fun _ => none) calls) := by
  have start : Addressed (bplusTreeInit { memory with next := 0 } order entries) fun _ => none :=
    ⟨bplusTreeInit_sound memory orders sizes, fun key tid => by
      rw [(bplusTreeInit_blank { memory with next := 0 } orders sizes).entriesInOrder]
      simp⟩
  exact meets.simulates start fun _ _ call addressed condition => addressed.put call condition.2 condition.1

/-- In a run of such calls every key keeps the address it was inserted with. -/
theorem puts_addressed (memory : Heap) (order entries : Nat)
    (orders : BPLUS_MIN_ORDER ≤ order ∧ order ≤ BPLUS_MAX_ORDER) (sizes : 1 ≤ entries ∧ entries ≤ BPLUS_MAX_ENTRIES)
    (calls : List Put) (meets : Meets put (fun t call => KeepsAddresses t call ∧ (put t call).level < BPLUS_MAX_LEVEL)
      (bplusTreeInit { memory with next := 0 } order entries) calls) :
    let t := run put (bplusTreeInit { memory with next := 0 } order entries) calls
    let stored := run lastAddress (fun _ => none) calls
    ∀ key tid, stored key = some tid ↔
      ∃ leaf ∈ t.nodesAt t.level, ∃ i < t.heap.count leaf, t.heap.key leaf i = key ∧ t.heap.tidAt leaf i = tid := by
  intro t stored key tid
  rw [(run_addressed memory orders sizes meets).entries, BplusTree.entriesInOrder, mem_flatMap]
  simp only [Heap.addressed, mem_slots, Prod.mk.injEq]
  rfl

def ascendingPuts : List Put :=
  [⟨1, ['a'], ⟨0, 0, 1⟩⟩, ⟨2, ['b'], ⟨0, 0, 2⟩⟩, ⟨2, ['c'], ⟨0, 0, 9⟩⟩, ⟨3, ['d'], ⟨0, 0, 3⟩⟩, ⟨4, ['e'], ⟨0, 0, 4⟩⟩,
    ⟨4, zeroString, ⟨0, 0, 4⟩⟩]

theorem puts_addressed_ascendingPuts :
    let t := run put (bplusTreeInit { Heap.zeroed with next := 0 } 3 2) ascendingPuts
    ∃ leaf ∈ t.nodesAt t.level, ∃ i < t.heap.count leaf, t.heap.key leaf i = 2 ∧ t.heap.tidAt leaf i = ⟨0, 0, 2⟩ := by
  have meets : Meets put (fun t call => KeepsAddresses t call ∧ (put t call).level < BPLUS_MAX_LEVEL)
      (bplusTreeInit { Heap.zeroed with next := 0 } 3 2) ascendingPuts := by
    decide +kernel
  have value : run lastAddress (fun _ => none) ascendingPuts 2 = some ⟨0, 0, 2⟩ := by decide +kernel
  have held := @puts_addressed Heap.zeroed 3 2 (by decide) (by decide) ascendingPuts meets
  -- the tree is not to be computed here
  grind

/-- The second of two keys in descending order stores its address in the cell of the first. -/
theorem descending_puts_share : let calls : List Put := [⟨2, ['a'], ⟨0, 0, 1⟩⟩, ⟨1, ['b'], ⟨0, 0, 2⟩⟩]
    run lastAddress (fun _ => none) calls 2 = some ⟨0, 0, 1⟩ ∧
      (run put (bplusTreeInit { Heap.zeroed with next := 0 } 10 10) calls).entriesInOrder =
        [(1, ⟨0, 0, 2⟩), (2, ⟨0, 0, 2⟩)] := by
  decide +kernel

end BlockchainPG.Mbt
