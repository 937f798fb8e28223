import BlockchainPG.Mbt.Hash
import BlockchainPG.Mbt.PageFile

/-! Reading a stored tree back into memory that holds anything. -/

namespace BlockchainPG.Mbt

open Lib

/-- A tree that was read, with the subtrees found through `chindrenoffset`. -/
inductive Loaded where
  | leaf (node : LeafNode)
  | nonLeaf (node : NonLeafNode) (subs : List Loaded)

/-- The memory that the node at the end of a path is read into. A path lists
the child positions from the node up to the root. -/
structure Room where
  leaf : List Nat → LeafNode
  nonLeaf : List Nat → NonLeafNode

/-- Reads the page at a place and, `level` times, the pages of its children. -/
def load (disk : Nat → List Char) (room : Room) : Nat → List Nat → Int → Option Loaded
  | 0, path, place => do
    let (node, _) ← (bplusLeafDeserialize (room.leaf path)).run (disk place.toNat)
    return .leaf node
  | level + 1, path, place => do
    let (node, _) ← (bplusNonLeafDeserialize (room.nonLeaf path)).run (disk place.toNat)
    let subs ← (List.range node.children.toNat).mapM fun i => load disk room level (i :: path) (node.chindrenoffset i)
    return .nonLeaf node subs

/-- The fields that both kinds of nodes have agree with those in memory. -/
structure SameHeader (h : Heap) (node : Addr) (type parentKeyIdx count : Int) (nodeHash : CharArray 33)
    (nodeId parentId : Int) : Prop where
  type : type = h.type node
  parentKeyIdx : parentKeyIdx = h.parentKeyIdx node
  count : count = h.count node
  nodeHash : nodeHash.text = h.nodeHash node
  nodeId : nodeId = h.nodeId node
  parentId : parentId = h.parentId node

/-- What was read is the subtree of height `k` below a node: the same shape,
keys, data, hashes, ids and heap addresses. -/
def SameTree (h : Heap) : Nat → Addr → Loaded → Prop
  | 0, leaf, .leaf node =>
    SameHeader h leaf node.type node.parentKeyIdx node.entries node.nodeHash node.nodeId node.parentId ∧
      ∀ i < h.count leaf, node.key i = h.key leaf i ∧ (node.data i).text = h.data leaf i ∧
        (node.childhash i).text = h.childhash leaf i ∧ node.tids i = h.cell (h.tids leaf i)
  | k + 1, inner, .nonLeaf node subs =>
    SameHeader h inner node.type node.parentKeyIdx node.children node.nodeHash node.nodeId node.parentId ∧
      (∀ i < h.count inner - 1, node.key i = h.key inner i) ∧
      (∀ i < h.count inner, (node.childhash i).text = h.childhash inner i) ∧
      subs.length = h.count inner ∧ ∀ i sub, subs[i]? = some sub → SameTree h k (h.subPtr inner i) sub
  | 0, _, .nonLeaf _ _ => False
  | _ + 1, _, .leaf _ => False

/-- Every slot that a string of full length is read into has a zero behind it. -/
def Cleared (h : Heap) (room : Room) : Nat → Addr → List Nat → Prop
  | 0, leaf, path =>
    Keeps (room.leaf path).nodeHash (h.nodeHash leaf) ∧ ∀ i < h.count leaf,
      Keeps ((room.leaf path).data i) (h.data leaf i) ∧ Keeps ((room.leaf path).childhash i) (h.childhash leaf i)
  | k + 1, inner, path =>
    Keeps (room.nonLeaf path).nodeHash (h.nodeHash inner) ∧ ∀ i < h.count inner,
      Keeps ((room.nonLeaf path).childhash i) (h.childhash inner i) ∧ Cleared h room k (h.subPtr inner i) (i :: path)

def TypedHeader (h : Heap) (node : Addr) : Prop :=
  FitsSigned 8 (h.type node) ∧ FitsSigned 8 (h.parentKeyIdx node) ∧ FitsSigned 8 (h.nodeId node) ∧
    FitsSigned 8 (h.parentId node) ∧ IsText (h.nodeHash node)

instance : Decidable (TypedHeader h node) := inferInstanceAs (Decidable (_ ∧ _))

/-- The values in use below a node have their C types: `int64_t` for keys and
ids, and strings that fit their slots of 33 characters. -/
def Typed (h : Heap) : Nat → Addr → Prop
  | 0, leaf => TypedHeader h leaf ∧
      ∀ i < h.count leaf, FitsSigned 8 (h.key leaf i) ∧ IsText (h.data leaf i) ∧ IsText (h.childhash leaf i)
  | k + 1, inner => TypedHeader h inner ∧ (∀ i < h.count inner - 1, FitsSigned 8 (h.key inner i)) ∧
      ∀ i < h.count inner, IsText (h.childhash inner i) ∧ Typed h k (h.subPtr inner i)

instance Typed.decidable (h : Heap) : ∀ k node, Decidable (Typed h k node)
  | 0, _ => inferInstanceAs (Decidable (_ ∧ _))
  | k + 1, _ =>
    have : ∀ node, Decidable (Typed h k node) := Typed.decidable h k
    inferInstanceAs (Decidable (_ ∧ _))

instance Cleared.decidable (h : Heap) (room : Room) : ∀ k node path, Decidable (Cleared h room k node path)
  | 0, _, _ => inferInstanceAs (Decidable (_ ∧ _))
  | k + 1, _, _ =>
    have : ∀ node path, Decidable (Cleared h room k node path) := Cleared.decidable h room k
    inferInstanceAs (Decidable (_ ∧ _))

section Loading

variable {h : Heap} {t : BplusTree} {y : Shape} {file : PageFile}

theorem mapM_range {α : Type} {f : Nat → Option α} {good : Nat → α → Prop}
    (each : ∀ i < n, ∃ a, f i = some a ∧ good i a) :
    ∃ list, (List.range n).mapM f = some list ∧ list.length = n ∧ ∀ i a, list[i]? = some a → good i a := by
  induction n with
  | zero => exact ⟨[], rfl, rfl, by simp⟩
  | succ n ih =>
    obtain ⟨list, done, size, all⟩ := ih fun i less => each i (by omega)
    obtain ⟨last, found, fine⟩ := each n (by omega)
    refine ⟨list ++ [last], by simp [List.range_succ, done, found], by simp [size], fun i a entry => ?_⟩
    grind

theorem sameHeader_iff (typed : TypedHeader h node) (slot : CharArray 33) :
    SameHeader h node (wrapSigned 8 (h.type node)) (wrapSigned 8 (h.parentKeyIdx node)) (h.count node)
      (filled slot (h.nodeHash node)) (wrapSigned 8 (h.nodeId node)) (wrapSigned 8 (h.parentId node)) ↔
      Keeps slot (h.nodeHash node) := by
  obtain ⟨type, index, ownId, parentId, text⟩ := typed
  rw [wrapSigned_of_fits (by decide) type, wrapSigned_of_fits (by decide) index,
    wrapSigned_of_fits (by decide) ownId, wrapSigned_of_fits (by decide) parentId]
  constructor
  · intro same
    exact (text_filled text slot).mp same.nodeHash
  · intro keeps
    exact ⟨rfl, rfl, rfl, (text_filled text slot).mpr keeps, rfl, rfl⟩

theorem sameTree_leaf_iff (typed : Typed h 0 leaf) (room : Room) (path : List Nat) :
    SameTree h 0 leaf (.leaf (h.leafOver leaf (room.leaf path))) ↔ Cleared h room 0 leaf path := by
  obtain ⟨header, values⟩ := typed
  refine and_congr (sameHeader_iff header _) (forall₂_congr fun i inside => ?_)
  obtain ⟨fits, data, child⟩ := values i inside
  simp only [Heap.leafOver, overwrite, if_pos inside, wrapSigned_of_fits (by decide : 0 < 8) fits, text_filled data,
    text_filled child, true_and, and_true]

theorem sameTree_nonLeaf_iff {subs : List Loaded} (typed : Typed h (k + 1) node) (room : Room) (path : List Nat)
    (row : Nat → Int) (size : subs.length = h.count node) (below : ∀ i sub, subs[i]? = some sub →
      (SameTree h k (h.subPtr node i) sub ↔ Cleared h room k (h.subPtr node i) (i :: path))) :
    SameTree h (k + 1) node (.nonLeaf (h.nonLeafOver row node (room.nonLeaf path)) subs) ↔
      Cleared h room (k + 1) node path := by
  obtain ⟨header, keys, values⟩ := typed
  have keySame : ∀ i < h.count node - 1, (h.nonLeafOver row node (room.nonLeaf path)).key i = h.key node i := by
    intro i inside
    simp only [Heap.nonLeafOver, overwrite, if_pos (by omega : i < h.count node),
      wrapSigned_of_fits (by decide : 0 < 8) (keys i inside)]
  have hashes : ∀ i < h.count node, ((h.nonLeafOver row node (room.nonLeaf path)).childhash i).text =
      h.childhash node i ↔ Keeps ((room.nonLeaf path).childhash i) (h.childhash node i) := by
    intro i inside
    simp only [Heap.nonLeafOver, overwrite, if_pos inside, text_filled (values i inside).1]
  have found : ∀ i < h.count node, ∃ sub, subs[i]? = some sub := fun i inside =>
    ⟨_, List.getElem?_eq_getElem (size ▸ inside)⟩
  constructor
  · rintro ⟨same, -, texts, -, trees⟩
    refine ⟨(sameHeader_iff header _).mp same, fun i inside => ⟨(hashes i inside).mp (texts i inside), ?_⟩⟩
    grind
  · rintro ⟨top, cleared⟩
    refine ⟨(sameHeader_iff header _).mpr top, keySame, fun i inside => (hashes i inside).mpr (cleared i inside).1,
      size, fun i sub entry => (below i sub entry).mpr (cleared i ?_).2⟩
    rw [← size]
    exact (List.getElem?_eq_some_iff.mp entry).1

/-- A filed tree can be read, and it is the same tree exactly when the memory
it was read into has its zeros. -/
theorem Filed.load_iff (rep : Rep t y) (orders : t.order < 50) (sizes : t.entries < 50) (bounded : file.offset < 2 ^ 63)
    (mem : node ∈ y.nodes k) (filed : Filed t.heap file k node place) (typed : Typed t.heap k node) (room : Room)
    (path : List Nat) : ∃ loaded, load file.disk room k path place = some loaded ∧
      (SameTree t.heap k node loaded ↔ Cleared t.heap room k node path) := by
  induction k generalizing node place path with
  | zero =>
    obtain ⟨-, rest, page⟩ := filed
    obtain ⟨holds, -, most, -⟩ := rep.lies 0 node mem id
    have reads := reads_leaf (by rw [holds.leafCount]; omega) (room.leaf path) rest
    grind [sameTree_leaf_iff, load]
  | succ k ih =>
    obtain ⟨-, row, rest, page, subs⟩ := filed
    obtain ⟨holds, -, most, -⟩ := rep.lies (k + 1) node mem id
    have reads := reads_nonLeaf (by rw [holds.count]; omega) row (room.nonLeaf path) rest
    have each : ∀ i < t.heap.count node, ∃ loaded, load file.disk room k (i :: path)
        ((t.heap.nonLeafOver row node (room.nonLeaf path)).chindrenoffset i) = some loaded ∧
          (SameTree t.heap k (t.heap.subPtr node i) loaded ↔
            Cleared t.heap room k (t.heap.subPtr node i) (i :: path)) := by
      intro i inside
      obtain ⟨sub, entry, below⟩ := subs i inside
      have kid : t.heap.subPtr node i ∈ y.kids node := by
        rw [← holds.2.1]
        exact List.mem_of_getElem? (by rw [slots_getElem?, if_pos inside])
      have fits : FitsSigned 8 (sub : Int) := by
        have before : sub < file.offset := by cases k <;> exact below.1
        constructor <;> omega
      have place : (t.heap.nonLeafOver row node (room.nonLeaf path)).chindrenoffset i = sub := by
        simp only [Heap.nonLeafOver, overwrite, if_pos inside, entry, wrapSigned_of_fits (by decide : 0 < 8) fits]
      rw [place]
      exact ih (rep.valid.kid_mem mem kid) below (typed.2.2 i inside).2 (i :: path)
    obtain ⟨loaded, done, size, trees⟩ := mapM_range each
    refine ⟨_, ?_, sameTree_nonLeaf_iff typed room path row size trees⟩
    rw [load, Int.toNat_natCast, page, reads]
    have count : (t.heap.nonLeafOver row node (room.nonLeaf path)).children.toNat = t.heap.count node :=
      Int.toNat_natCast _
    grind

end Loading

/-- The tree is stored, and what is read from the returned place on is the same tree. -/
def StoresAndLoads (t : BplusTree) (file : PageFile) (room : Room) : Prop :=
  ∃ rootOffset file' root loaded, bplusTreeStore t file = some (rootOffset, file') ∧ t.root = some root ∧
    load file'.disk room t.level [] rootOffset = some loaded ∧ SameTree t.heap t.level root loaded

/-- A tree built by puts comes back from its pages exactly when it has a root and
every slot that receives 32 characters already has a zero behind them. -/
theorem storesAndLoads_iff (memory : Heap) (order entries : Nat) (orders : BPLUS_MIN_ORDER ≤ order ∧ order < 50)
    (sizes : 1 ≤ entries ∧ entries < 50) (calls : List Put)
    (height : Meets put (fun t call => (put t call).level < BPLUS_MAX_LEVEL) (bplusTreeInit memory order entries) calls)
    (marks : Marks) (file : PageFile) (start : file.offset = 0) (room : Room) :
    let t := (run put (bplusTreeInit memory order entries) calls).marked marks
    (∀ root ∈ t.root, Typed t.heap t.level root) →
      (StoresAndLoads t file room ↔ ∃ root ∈ t.root, Cleared t.heap room t.level root []) := by
  intro t typed
  obtain ⟨sameOrder, sameEntries, content, stores, -⟩ :=
    run_hasKeys memory ⟨orders.1, orders.2.le⟩ ⟨sizes.1, sizes.2.le⟩ height
  rcases stores with ⟨blank, -⟩ | ⟨y, rep, -⟩
  · refine iff_of_false ?_ ?_
    · rintro ⟨-, -, root, -, -, known, -⟩
      exact nomatch known.symm.trans blank.root
    · rintro ⟨root, known, -⟩
      exact nomatch (Option.mem_def.mp known).symm.trans blank.root
  · have marked : Rep t y := rep.marked marks
    have order' : t.order < 50 := sameOrder.trans_lt orders.2
    have entries' : t.entries < 50 := sameEntries.trans_lt sizes.2
    obtain ⟨rootOffset, file', stored, filed, bounded⟩ := bplusTreeStore_filed marked order' entries' start
    have typedRoot := typed y.root marked.root
    rw [marked.level] at typedRoot
    obtain ⟨loaded, read, same⟩ := filed.load_iff marked order' entries' bounded marked.valid.root_mem typedRoot room []
    rw [marked.root]
    constructor
    · rintro ⟨rootOffset', file'', root, loaded', stored', known, read', tree⟩
      grind [RepBut.root, RepBut.level]
    · rintro ⟨root, known, cleared⟩
      obtain rfl : y.root = root := by simpa using known
      rw [marked.level] at cleared
      refine ⟨rootOffset, file', y.root, loaded, stored, marked.root, ?_, ?_⟩
      · rw [marked.level, read]
      · rw [marked.level]
        exact same.mpr cleared

def fullHashes : Marks where
  childhash _ _ := List.replicate 32 'h'
  nodeHash _ := List.replicate 32 'n'
  nodeId node := node
  parentId _ := -1

/-- Memory full of one character. -/
def Room.filledWith (c : Char) : Room where
  leaf _ := ⟨0, 0, 0, fun _ => 0, fun _ => ⟨List.replicate 33 c, rfl⟩, fun _ => ⟨List.replicate 33 c, rfl⟩,
    ⟨List.replicate 33 c, rfl⟩, 0, 0, fun _ => ⟨0, 0, 0⟩⟩
  nonLeaf _ := ⟨0, 0, 0, fun _ => 0, fun _ => ⟨List.replicate 33 c, rfl⟩, ⟨List.replicate 33 c, rfl⟩, fun _ => 0, 0, 0⟩

def PageFile.empty : PageFile := ⟨0, fun _ => [], fun _ _ => 0, []⟩

theorem storesAndLoads_iff_splitsAndMerges :
    StoresAndLoads ((run put (bplusTreeInit Heap.zeroed 3 2) splitsAndMerges).marked fullHashes) PageFile.empty
      (Room.filledWith '\x00') :=
  (storesAndLoads_iff Heap.zeroed 3 2 (by decide) (by decide) splitsAndMerges (by decide +kernel) fullHashes
    PageFile.empty rfl (Room.filledWith '\x00') (by decide +kernel)).mpr (by decide +kernel)

def oneEntry : BplusTree := (put (bplusTreeInit Heap.zeroed 10 10) ⟨1, ['a'], ⟨0, 0, 1⟩⟩).marked fullHashes

def Loaded.firstChildhash : Loaded → CString
  | .leaf node => (node.childhash 0).text
  | .nonLeaf node _ => (node.childhash 0).text

theorem oneEntry_runs_on : (bplusTreeStore oneEntry PageFile.empty).bind (fun stored =>
      (load stored.2.disk (Room.filledWith 'x') oneEntry.level [] stored.1).map Loaded.firstChildhash) =
      some (List.replicate 32 'h' ++ ['x']) := by
  decide +kernel

/-- Read into memory that is not clear, a hash of 32 characters runs on into it. -/
theorem oneEntry_not_storesAndLoads : ¬StoresAndLoads oneEntry PageFile.empty (Room.filledWith 'x') := by
  rintro ⟨rootOffset, file', root, loaded, stored, known, read, same⟩
  have longer := oneEntry_runs_on
  rw [stored, Option.bind_some, read, Option.map_some, Option.some.injEq] at longer
  have level : oneEntry.level = 0 := by decide +kernel
  rw [level] at same
  cases loaded with
  | nonLeaf node subs => exact same
  | leaf node =>
    have count : ∀ root ∈ oneEntry.root, oneEntry.heap.count root = 1 := by decide +kernel
    have text := (same.2 0 (by rw [count root known]; decide)).2.2.1
    have hash : oneEntry.heap.childhash root 0 = List.replicate 32 'h' := rfl
    rw [Loaded.firstChildhash, text, hash] at longer
    exact absurd longer (by decide)

end BlockchainPG.Mbt
