import BlockchainPG.Lib.CharArray
import BlockchainPG.Mbt.Tree
import BlockchainPG.Mbt.WellFormed
import Mathlib.Algebra.Order.BigOperators.Group.List
import Mathlib.Data.List.Chain

/-! The page image of a node, as it is written and read. -/

namespace BlockchainPG.Mbt

open Lib Function List

/-- The fields of a `bplus_leaf` that a page carries. -/
structure LeafNode where
  type : Int
  parentKeyIdx : Int
  entries : Int
  key : Nat → Int
  data : Nat → CharArray 33
  childhash : Nat → CharArray 33
  nodeHash : CharArray 33
  nodeId : Int
  parentId : Int
  tids : Nat → ItemPointerData

/-- The fields of a `bplus_non_leaf` that a page carries. -/
structure NonLeafNode where
  type : Int
  parentKeyIdx : Int
  children : Int
  key : Nat → Int
  childhash : Nat → CharArray 33
  nodeHash : CharArray 33
  chindrenoffset : Nat → Int
  nodeId : Int
  parentId : Int

/-- `memcpy` of a slot of 33 characters. What lies behind the terminating zero
is never read, so it is zero here. -/
def slotImage (string : CString) : List Char := (CharArray.holding 33 string).bytes

def tidBytes (tid : ItemPointerData) : List Char :=
  wordBytes 2 tid.biHi.toNat ++ (wordBytes 2 tid.biLo.toNat ++ wordBytes 2 tid.ipPosid.toNat)

namespace Heap

def bplusLeafSerialize (h : Heap) (leaf : Addr) : List Char :=
  let slots := range (h.count leaf)
  signedBytes 8 (h.type leaf) ++ (signedBytes 8 (h.parentKeyIdx leaf) ++ (signedBytes 8 (h.count leaf) ++
    (slots.flatMap (fun i => signedBytes 8 (h.key leaf i)) ++ (slots.flatMap (fun i => slotImage (h.data leaf i)) ++
      (slots.flatMap (fun i => slotImage (h.childhash leaf i)) ++ (slotImage (h.nodeHash leaf) ++
        (signedBytes 8 (h.nodeId leaf) ++ (signedBytes 8 (h.parentId leaf) ++
          slots.flatMap (fun i => tidBytes (h.cell (h.tids leaf i)))))))))))

/-- The row `chindrenoffset` of the node is given apart from the rest of its memory.
As many keys are written as the node has children, one more than it uses. -/
def bplusNonLeafSerialize (h : Heap) (chindrenoffset : Nat → Int) (node : Addr) : List Char :=
  let slots := range (h.count node)
  signedBytes 8 (h.type node) ++ (signedBytes 8 (h.parentKeyIdx node) ++ (signedBytes 8 (h.count node) ++
    (slots.flatMap (fun i => signedBytes 8 (h.key node i)) ++
      (slots.flatMap (fun i => slotImage (h.childhash node i)) ++ (slotImage (h.nodeHash node) ++
        (slots.flatMap (fun i => signedBytes 8 (chindrenoffset i)) ++
          (signedBytes 8 (h.nodeId node) ++ signedBytes 8 (h.parentId node))))))))

end Heap

theorem flatMap_range_length {encode : Nat → List Char} (size : ∀ i, (encode i).length = width) (bound : Nat) :
    ((range bound).flatMap encode).length = bound * width := by
  induction bound with
  | zero => simp
  | succ bound ih => rw [range_succ, flatMap_append, length_append, ih]; simp [size, Nat.succ_mul]

theorem slotImage_length : (slotImage string).length = 33 := (CharArray.holding 33 string).size_eq

theorem tidBytes_length : (tidBytes tid).length = 6 := by simp [tidBytes]

theorem bplusLeafSerialize_length (h : Heap) (leaf : Addr) :
    (h.bplusLeafSerialize leaf).length = 73 + 80 * h.count leaf := by
  simp only [Heap.bplusLeafSerialize, length_append, signedBytes_length, slotImage_length,
    flatMap_range_length fun _ => signedBytes_length, flatMap_range_length fun _ => slotImage_length,
    flatMap_range_length fun _ => tidBytes_length]
  omega

theorem bplusNonLeafSerialize_length (h : Heap) (chindrenoffset : Nat → Int) (node : Addr) :
    (h.bplusNonLeafSerialize chindrenoffset node).length = 73 + 49 * h.count node := by
  simp only [Heap.bplusNonLeafSerialize, length_append, signedBytes_length, slotImage_length,
    flatMap_range_length fun _ => signedBytes_length, flatMap_range_length fun _ => slotImage_length]
  omega

/-- `array[i] = *(int64_t *)` at the cursor. -/
def readEntry (array : Nat → Int) (i : Nat) : Reader (Nat → Int) := do
  let value ← readSigned 8
  return update array i value

/-- `strncpy(slot, buffer + pos, 32)` into a slot of 33 characters, all of which are passed over. -/
def readSlot (slot : CharArray 33) : Reader (CharArray 33) := do
  let bytes ← takeBytes 33
  return slot.strncpy 32 (by decide) bytes

def readSlotEntry (array : Nat → CharArray 33) (i : Nat) : Reader (Nat → CharArray 33) := do
  let slot ← readSlot (array i)
  return update array i slot

def readTid (array : Nat → ItemPointerData) (i : Nat) : Reader (Nat → ItemPointerData) := do
  let biHi ← readWord 2
  let biLo ← readWord 2
  let ipPosid ← readWord 2
  return update array i ⟨.ofNat biHi, .ofNat biLo, .ofNat ipPosid⟩

def bplusLeafDeserialize (leaf : LeafNode) : Reader LeafNode := do
  let type ← readSigned 8
  let parentKeyIdx ← readSigned 8
  let entries ← readSigned 8
  let slots := range entries.toNat
  let key ← slots.foldlM readEntry leaf.key
  let data ← slots.foldlM readSlotEntry leaf.data
  let childhash ← slots.foldlM readSlotEntry leaf.childhash
  let nodeHash ← readSlot leaf.nodeHash
  let nodeId ← readSigned 8
  let parentId ← readSigned 8
  let tids ← slots.foldlM readTid leaf.tids
  return { type, parentKeyIdx, entries, key, data, childhash, nodeHash, nodeId, parentId, tids }

def bplusNonLeafDeserialize (node : NonLeafNode) : Reader NonLeafNode := do
  let type ← readSigned 8
  let parentKeyIdx ← readSigned 8
  let children ← readSigned 8
  let slots := range children.toNat
  let key ← slots.foldlM readEntry node.key
  let childhash ← slots.foldlM readSlotEntry node.childhash
  let nodeHash ← readSlot node.nodeHash
  let chindrenoffset ← slots.foldlM readEntry node.chindrenoffset
  let nodeId ← readSigned 8
  let parentId ← readSigned 8
  return { type, parentKeyIdx, children, key, childhash, nodeHash, chindrenoffset, nodeId, parentId }

/-- The slot after a string was read into it. -/
def filled (slot : CharArray 33) (string : CString) : CharArray 33 := slot.strncpy 32 (by decide) (slotImage string)

/-- A string that came from a slot of 33 characters. -/
def IsText (string : CString) : Prop := string.length ≤ 32 ∧ '\x00' ∉ string

instance : Decidable (IsText string) := inferInstanceAs (Decidable (_ ∧ _))

/-- A slot gives a string back: the string leaves room for its zero, or the slot
already has one in its last place. -/
def Keeps (slot : CharArray 33) (string : CString) : Prop := string.length < 32 ∨ slot.bytes[32]? = some '\x00'

instance : Decidable (Keeps slot string) := inferInstanceAs (Decidable (_ ∨ _))

theorem text_filled (isText : IsText string) (slot : CharArray 33) :
    (filled slot string).text = string ↔ Keeps slot string :=
  CharArray.text_strncpy_iff slot isText.2 isText.1

section Reading

theorem reads_slot33 (slot : CharArray 33) (string : CString) :
    Reads (readSlot slot) (slotImage string) (filled slot string) :=
  (Reads.array (CharArray.holding 33 string)).andReturn fun bytes => slot.strncpy 32 (by decide) bytes

theorem reads_entries (source target : Nat → Int) (bound : Nat) : Reads ((range bound).foldlM readEntry target)
      ((range bound).flatMap fun i => signedBytes 8 (source i))
      (overwrite (fun i => wrapSigned 8 (source i)) target bound) :=
  Reads.fills fun i _ array _ => (Reads.wrapped 8 (source i)).andReturn fun value => update array i value

theorem reads_slots (source : Nat → CString) (target : Nat → CharArray 33) (bound : Nat) :
    Reads ((range bound).foldlM readSlotEntry target) ((range bound).flatMap fun i => slotImage (source i))
      (overwrite (fun i => filled (target i) (source i)) target bound) := by
  refine Reads.fills fun i _ array same => ?_
  rw [← same]
  exact (reads_slot33 (array i) (source i)).andReturn fun slot => update array i slot

theorem reads_tid (array : Nat → ItemPointerData) (i : Nat) (tid : ItemPointerData) :
    Reads (readTid array i) (tidBytes tid) (update array i tid) := by
  have half : ∀ value : UInt16, value.toNat < 256 ^ 2 := fun value => value.toNat_lt
  have whole : (⟨.ofNat tid.biHi.toNat, .ofNat tid.biLo.toNat, .ofNat tid.ipPosid.toNat⟩ : ItemPointerData) = tid := by
    simp only [UInt16.ofNat_toNat]
  have read : Reads (readTid array i) (tidBytes tid) (update array i
      ⟨.ofNat tid.biHi.toNat, .ofNat tid.biLo.toNat, .ofNat tid.ipPosid.toNat⟩) :=
    (Reads.word (half tid.biHi)).bind ((Reads.word (half tid.biLo)).bind ((Reads.word (half tid.ipPosid)).andReturn
      fun ipPosid => update array i ⟨.ofNat tid.biHi.toNat, .ofNat tid.biLo.toNat, .ofNat ipPosid⟩))
  rwa [whole] at read

theorem reads_tids (source target : Nat → ItemPointerData) (bound : Nat) :
    Reads ((range bound).foldlM readTid target) ((range bound).flatMap fun i => tidBytes (source i))
      (overwrite source target bound) :=
  Reads.fills fun i _ array _ => reads_tid array i (source i)

variable {h : Heap}

def Heap.leafOver (h : Heap) (leaf : Addr) (memory : LeafNode) : LeafNode where
  type := wrapSigned 8 (h.type leaf)
  parentKeyIdx := wrapSigned 8 (h.parentKeyIdx leaf)
  entries := h.count leaf
  key := overwrite (fun i => wrapSigned 8 (h.key leaf i)) memory.key (h.count leaf)
  data := overwrite (fun i => filled (memory.data i) (h.data leaf i)) memory.data (h.count leaf)
  childhash := overwrite (fun i => filled (memory.childhash i) (h.childhash leaf i)) memory.childhash (h.count leaf)
  nodeHash := filled memory.nodeHash (h.nodeHash leaf)
  nodeId := wrapSigned 8 (h.nodeId leaf)
  parentId := wrapSigned 8 (h.parentId leaf)
  tids := overwrite (fun i => h.cell (h.tids leaf i)) memory.tids (h.count leaf)

/-- What an inner node's page puts into the memory it is read into. -/
def Heap.nonLeafOver (h : Heap) (chindrenoffset : Nat → Int) (node : Addr) (memory : NonLeafNode) : NonLeafNode where
  type := wrapSigned 8 (h.type node)
  parentKeyIdx := wrapSigned 8 (h.parentKeyIdx node)
  children := h.count node
  key := overwrite (fun i => wrapSigned 8 (h.key node i)) memory.key (h.count node)
  childhash := overwrite (fun i => filled (memory.childhash i) (h.childhash node i)) memory.childhash (h.count node)
  nodeHash := filled memory.nodeHash (h.nodeHash node)
  chindrenoffset := overwrite (fun i => wrapSigned 8 (chindrenoffset i)) memory.chindrenoffset (h.count node)
  nodeId := wrapSigned 8 (h.nodeId node)
  parentId := wrapSigned 8 (h.parentId node)

theorem reads_count {count : Nat} (small : count ≤ 50) :
    Reads (readSigned 8) (signedBytes 8 (count : Int)) (count : Int) :=
  Reads.signed (by decide) ⟨by omega, by omega⟩

theorem reads_leaf (small : h.count leaf ≤ 50) (memory : LeafNode) :
    Reads (bplusLeafDeserialize memory) (h.bplusLeafSerialize leaf) (h.leafOver leaf memory) := by
  have keys := reads_entries (h.key leaf) memory.key (h.count leaf)
  have datas := reads_slots (h.data leaf) memory.data (h.count leaf)
  have hashes := reads_slots (h.childhash leaf) memory.childhash (h.count leaf)
  have tids := reads_tids (fun i => h.cell (h.tids leaf i)) memory.tids (h.count leaf)
  exact (Reads.wrapped 8 (h.type leaf)).bind ((Reads.wrapped 8 (h.parentKeyIdx leaf)).bind
    ((reads_count small).bind (keys.bind (datas.bind (hashes.bind ((reads_slot33 _ _).bind
      ((Reads.wrapped 8 (h.nodeId leaf)).bind ((Reads.wrapped 8 (h.parentId leaf)).bind
        (tids.andReturn fun tids => LeafNode.mk _ _ _ _ _ _ _ _ _ tids)))))))))

theorem reads_nonLeaf (small : h.count node ≤ 50) (chindrenoffset : Nat → Int) (memory : NonLeafNode) :
    Reads (bplusNonLeafDeserialize memory) (h.bplusNonLeafSerialize chindrenoffset node)
      (h.nonLeafOver chindrenoffset node memory) := by
  have keys := reads_entries (h.key node) memory.key (h.count node)
  have hashes := reads_slots (h.childhash node) memory.childhash (h.count node)
  have offsets := reads_entries chindrenoffset memory.chindrenoffset (h.count node)
  exact (Reads.wrapped 8 (h.type node)).bind ((Reads.wrapped 8 (h.parentKeyIdx node)).bind
    ((reads_count small).bind (keys.bind (hashes.bind ((reads_slot33 _ _).bind (offsets.bind
      ((Reads.wrapped 8 (h.nodeId node)).bind ((Reads.wrapped 8 (h.parentId node)).andReturn
        fun parentId => NonLeafNode.mk _ _ _ _ _ _ _ _ parentId))))))))

end Reading

def PAGESIZE : Nat := 4096

/-- The file, the place of the next page in it, the rows `chindrenoffset` of the
inner nodes, and the buffer that all pages are written from. -/
structure PageFile where
  offset : Nat
  disk : Nat → List Char
  chindrenoffset : Addr → Nat → Int
  buffer : List Char

namespace Heap

/-- `node->parent->chindrenoffset[children_number] = tree->offset`. -/
def noteOffset (h : Heap) (node : Addr) (childrenNumber : Nat) (file : PageFile) : Addr → Nat → Int :=
  match h.parent node with
  | none => file.chindrenoffset
  | some parent => update file.chindrenoffset parent
      (update (file.chindrenoffset parent) childrenNumber file.offset)

/-- Steps 1 and 2 of the loop: the page of a node, and its place for the parent.
A page that the buffer has no room for is none. -/
def storeNode (h : Heap) (serialize : (Nat → Int) → Addr → List Char) (node : Addr) (childrenNumber : Nat)
    (file : PageFile) : Option PageFile :=
  let bytes := serialize (file.chindrenoffset node) node
  if bytes.length ≤ PAGESIZE then
    let buffer := bytes ++ file.buffer.drop bytes.length
    some {
      offset := file.offset + PAGESIZE
      disk := update file.disk file.offset buffer
      chindrenoffset := h.noteOffset node childrenNumber file
      buffer }
  else none

/-- `node->parent->children`, when there is a parent. -/
def siblingCount (h : Heap) (node : Addr) (otherwise : Nat) : Nat :=
  match h.parent node with
  | none => otherwise
  | some parent => h.count parent

/-- The loop along `list[k]`, at most `fuel` nodes. -/
def storeLevel (h : Heap) (serialize : (Nat → Int) → Addr → List Char) (switches : Nat → Nat → Bool) (k : Nat) :
    Nat → Addr → Nat → Nat → PageFile → Option PageFile
  | 0, _, _, _, _ => none
  | fuel + 1, node, childCount, childrenNumber, file => do
    let file ← h.storeNode serialize node childrenNumber file
    let childrenNumber := childrenNumber + 1
    match h.links.next (.node node) with
    | .head j => if j = k then some file else none
    | .node next =>
      if switches childrenNumber childCount then
        h.storeLevel serialize switches k fuel next (h.siblingCount next childCount) 0 file
      else h.storeLevel serialize switches k fuel next childCount childrenNumber file

/-- The leaf level changes to the next parent on `>=`, the levels above on `==`. -/
def switches : Nat → Nat → Nat → Bool
  | 0, childrenNumber, childCount => childrenNumber ≥ childCount
  | _ + 1, childrenNumber, childCount => childrenNumber = childCount

/-- The page image of a node of level `k`. -/
def serialize (h : Heap) : Nat → (Nat → Int) → Addr → List Char
  | 0, _, leaf => h.bplusLeafSerialize leaf
  | _ + 1, chindrenoffset, node => h.bplusNonLeafSerialize chindrenoffset node

/-- One level of `bplus_tree_store`. A list head is no node: with nothing in the
list the loop would take the memory around the head for one. -/
def storeFrom (h : Heap) (file : PageFile) (k : Nat) : Option PageFile :=
  match h.links.next (.head k) with
  | .head _ => none
  | .node first => h.storeLevel (h.serialize k) (switches k) k h.next first (h.siblingCount first 0) 0 file

end Heap

/-- `bplus_tree_store`: the place of the root's page. -/
def bplusTreeStore (t : BplusTree) (file : PageFile) : Option (Nat × PageFile) := do
  let file := { file with buffer := replicate PAGESIZE '\x00' }
  let file ← (range t.level).foldlM t.heap.storeFrom file
  let rootOffset := file.offset
  let file ← t.heap.storeFrom file t.level
  return (rootOffset, file)

section Walk

variable {h : Heap} {file file' : PageFile} {nodes : List Addr}

/-- The place of a node among the children of its parent. -/
def Heap.slotOf (h : Heap) (node : Addr) : Nat := (h.parentKeyIdx node + 1).toNat

/-- All nodes of a list got a page, one after the other, and their parents know where. -/
structure Walked (h : Heap) (serialize : (Nat → Int) → Addr → List Char) (nodes : List Addr)
    (file file' : PageFile) : Prop where
  offset : file'.offset = file.offset + PAGESIZE * nodes.length
  pages : ∀ j node, nodes[j]? = some node →
    ∃ rest, file'.disk (file.offset + PAGESIZE * j) = serialize (file.chindrenoffset node) node ++ rest
  noted : ∀ j node, nodes[j]? = some node → ∀ parent, h.parent node = some parent →
    file'.chindrenoffset parent (h.slotOf node) = ↑(file.offset + PAGESIZE * j)
  kept : ∀ place < file.offset, file'.disk place = file.disk place
  rows : ∀ parent i, (∀ node ∈ nodes, h.parent node = some parent → h.slotOf node ≠ i) →
    file'.chindrenoffset parent i = file.chindrenoffset parent i

/-- The next node of a level is the next child of the same parent, or the first child of the next one. -/
def Follows (h : Heap) (node next : Addr) : Prop :=
  (h.siblingCount node 0 = h.slotOf node + 1 ∧ h.slotOf next = 0) ∨
    (h.slotOf node + 1 < h.siblingCount node 0 ∧ h.slotOf next = h.slotOf node + 1 ∧ h.parent next = h.parent node)

/-- What the loop relies on along a level. -/
structure Walkable (h : Heap) (serialize : (Nat → Int) → Addr → List Char) (k : Nat) (nodes : List Addr) : Prop where
  fits : ∀ node ∈ nodes, ∀ row, (serialize row node).length ≤ PAGESIZE
  linked : nodes.map (fun node => h.links.next (.node node)) = nodes.tail.map .node ++ [.head k]
  nodup : nodes.Nodup
  apart : ∀ a ∈ nodes, ∀ b ∈ nodes, h.parent b ≠ some a
  placed : ∀ node ∈ nodes, ∀ parent, h.parent node = some parent → h.subPtr parent (h.slotOf node) = node
  chain : nodes.IsChain (Follows h)
  family : 1 < nodes.length → ∀ node ∈ nodes, (h.parent node).isSome

variable {serialize : (Nat → Int) → Addr → List Char}

theorem Walkable.tail {next : Addr} (walkable : Walkable h serialize k (node :: next :: rest)) :
    Walkable h serialize k (next :: rest) where
  fits a mem := walkable.fits a (mem_cons_of_mem node mem)
  linked := (List.cons.inj walkable.linked).2
  nodup := walkable.nodup.of_cons
  apart a first b second := walkable.apart a (mem_cons_of_mem node first) b (mem_cons_of_mem node second)
  placed a mem := walkable.placed a (mem_cons_of_mem node mem)
  chain := (isChain_cons_cons.mp walkable.chain).2
  family many a mem := walkable.family (Nat.lt_succ_of_lt many) a (mem_cons_of_mem node mem)

theorem noteOffset_of_parent (known : h.parent node = some parent) :
    h.noteOffset node childrenNumber file parent childrenNumber = file.offset := by
  simp [Heap.noteOffset, known]

theorem noteOffset_else (other : h.parent node = some parent → childrenNumber ≠ i) :
    h.noteOffset node childrenNumber file parent i = file.chindrenoffset parent i := by
  cases known : h.parent node with
  | none => simp only [Heap.noteOffset, known]
  | some own =>
    simp only [Heap.noteOffset, known]
    by_cases same : parent = own
    · subst same
      rw [update_self, update_of_ne (other known).symm]
    · rw [update_of_ne same]

theorem storeNode_walked (fits : (serialize (file.chindrenoffset node) node).length ≤ PAGESIZE)
    (place : (h.parent node).isSome → childrenNumber = h.slotOf node) :
    ∃ file', h.storeNode serialize node childrenNumber file = some file' ∧ Walked h serialize [node] file file' := by
  refine ⟨_, if_pos fits, rfl, ?_, ?_, ?_, ?_⟩
  · intro j a found
    obtain ⟨rfl, rfl⟩ : node = a ∧ j = 0 := by simpa [getElem?_singleton, and_comm] using found
    exact ⟨_, update_self _ _ _⟩
  · grind [noteOffset_of_parent]
  · grind
  · grind [noteOffset_else]

theorem page_succ (offset j : Nat) : offset + PAGESIZE + PAGESIZE * j = offset + PAGESIZE * (j + 1) := by
  rw [Nat.mul_succ]
  omega

theorem Walked.cons (walkable : Walkable h serialize k (node :: rest)) (first : Walked h serialize [node] file middle)
    (others : Walked h serialize rest middle file') : Walked h serialize (node :: rest) file file' := by
  have next : middle.offset = file.offset + PAGESIZE := first.offset
  have absent : node ∉ rest := (nodup_cons.mp walkable.nodup).1
  refine ⟨?_, ?_, ?_, ?_, ?_⟩
  · rw [others.offset, next, length_cons, page_succ]
  · intro j a found
    cases j with
    | zero =>
      obtain rfl : node = a := by simpa using found
      rw [Nat.mul_zero, Nat.add_zero, others.kept _ (by rw [next, PAGESIZE]; omega)]
      exact first.pages 0 node rfl
    | succ j =>
      -- the row of a later node is not one that the first page was noted in
      have row : middle.chindrenoffset a = file.chindrenoffset a := by
        grind [rows, Walkable.apart]
      grind [pages]
  · intro j a found parent known
    cases j with
    | zero =>
      obtain rfl : node = a := by simpa using found
      rw [others.rows parent (h.slotOf node)]
      · exact first.noted 0 node rfl parent known
      · intro b mem sibling same
        have here := walkable.placed b (mem_cons_of_mem node mem) parent sibling
        grind [Walkable.placed]
    | succ j =>
      rw [others.noted j a found parent known, next, page_succ]
  · intro place before
    rw [others.kept place (by omega), first.kept place before]
  · intro parent i other
    rw [others.rows parent i fun b mem => other b (mem_cons_of_mem node mem),
      first.rows parent i fun b mem => other b (mem_singleton.mp mem ▸ mem_cons_self)]

theorem storeLevel_walked {switches : Nat → Nat → Bool} (full : ∀ n, switches n n = true)
    (more : ∀ n m, n < m → switches n m = false) (walkable : Walkable h serialize k (node :: rest))
    (enough : (node :: rest).length ≤ fuel)
    (counters : (h.parent node).isSome → childrenNumber = h.slotOf node ∧ childCount = h.siblingCount node 0) :
    ∃ file', h.storeLevel serialize switches k fuel node childCount childrenNumber file = some file' ∧
      Walked h serialize (node :: rest) file file' := by
  induction rest generalizing node fuel childCount childrenNumber file with
  | nil =>
    obtain ⟨fuel, rfl⟩ : ∃ n, fuel = n + 1 := ⟨fuel - 1, by simp at enough; omega⟩
    obtain ⟨file', stored, walked⟩ := storeNode_walked (walkable.fits node mem_cons_self (file.chindrenoffset node))
      fun known => (counters known).1
    have last : h.links.next (.node node) = .head k := (List.cons.inj walkable.linked).1
    grind [Heap.storeLevel]
  | cons next rest ih =>
    obtain ⟨fuel, rfl⟩ : ∃ n, fuel = n + 1 := ⟨fuel - 1, by simp at enough; omega⟩
    have known := walkable.family (by simp)
    obtain ⟨place, size⟩ := counters (known node mem_cons_self)
    obtain ⟨middle, stored, first⟩ := storeNode_walked
      (walkable.fits node mem_cons_self (file.chindrenoffset node)) fun _ => place
    have link : h.links.next (.node node) = .node next := (List.cons.inj walkable.linked).1
    have room : (next :: rest).length ≤ fuel := by simpa using enough
    have parentKnown : (h.parent next).isSome := known next (by simp)
    rcases (isChain_cons_cons.mp walkable.chain).1 with ⟨last, zero⟩ | ⟨inside, after, same⟩
    · -- the parent is complete, and the next node is the first child of the next parent
      have turn : switches (childrenNumber + 1) childCount = true := by rw [place, size, last]; exact full _
      have count : h.siblingCount next childCount = h.siblingCount next 0 := by
        grind [Heap.siblingCount]
      obtain ⟨file', done, others⟩ := ih walkable.tail room fun _ => ⟨zero.symm, count⟩
      refine ⟨file', ?_, Walked.cons walkable first others⟩
      simpa [Heap.storeLevel, stored, link, turn] using done
    · have stay : switches (childrenNumber + 1) childCount = false := by rw [place, size]; exact more _ _ inside
      have count : childCount = h.siblingCount next 0 := by rw [size, Heap.siblingCount, Heap.siblingCount, same]
      obtain ⟨file', done, others⟩ := ih walkable.tail room fun _ => ⟨(by rw [place, after] :
        childrenNumber + 1 = h.slotOf next), count⟩
      refine ⟨file', ?_, Walked.cons walkable first others⟩
      simpa [Heap.storeLevel, stored, link, stay] using done

end Walk

section Levels

variable {t : BplusTree} {y : Shape}

theorem RepBut.kid_place (rep : Rep t y) (mem : parent ∈ y.nodes (k + 1)) (slot : (y.kids parent)[i]? = some kid) :
    t.heap.slotOf kid = i ∧ t.heap.parent kid = some parent ∧ t.heap.siblingCount kid 0 = (y.kids parent).length ∧
      t.heap.subPtr parent i = kid ∧ i < t.heap.count parent := by
  have holds := (rep.lies (k + 1) parent mem id).1
  obtain ⟨known, index⟩ := holds.2.2.2 i kid slot
  have inside : i < t.heap.count parent := holds.count ▸ (List.getElem?_eq_some_iff.mp slot).1
  refine ⟨?_, known, ?_, ?_, inside⟩
  · simp [Heap.slotOf, index]
  · simp only [Heap.siblingCount, known, holds.count]
  · rw [← holds.2.1, slots_getElem?, if_pos inside, Option.some.injEq] at slot
    exact slot

theorem RepBut.has_place (rep : Rep t y) (mem : node ∈ y.nodes k) (low : k < y.level) :
    ∃ parent ∈ y.nodes (k + 1), (y.kids parent)[t.heap.slotOf node]? = some node := by
  obtain ⟨parent, above, kid⟩ := rep.valid.exists_parent mem low
  obtain ⟨i, slot⟩ := getElem?_of_mem kid
  exact ⟨parent, above, by rw [(rep.kid_place above slot).1, slot]⟩

theorem RepBut.kid_count (rep : Rep t y) (mem : parent ∈ y.nodes (k + 1)) : 2 ≤ (y.kids parent).length :=
  (rep.lies (k + 1) parent mem id).2.1

theorem RepBut.nodes_ne_nil (rep : Rep t y) (inside : k ≤ y.level) : y.nodes k ≠ [] := by
  induction inside using Nat.decreasingInduction with
  | self => simp [rep.valid.top]
  | of_succ k low ih =>
    obtain ⟨parent, rest, list⟩ := exists_cons_of_ne_nil ih
    have two := rep.kid_count (list ▸ mem_cons_self : parent ∈ y.nodes (k + 1))
    rw [rep.valid.flat k low, list, flatMap_cons]
    grind [append_eq_nil_iff]

theorem RepBut.chain (rep : Rep t y) (k : Nat) (inside : k ≤ y.level) : (y.nodes k).IsChain (Follows t.heap) := by
  rcases Nat.lt_or_eq_of_le inside with low | rfl
  · rw [rep.valid.flat k low, flatMap_def, isChain_flatten]
    · constructor
      · intro kids present
        obtain ⟨parent, mem, rfl⟩ := mem_map.mp present
        rw [isChain_iff_getElem]
        intro i less
        obtain ⟨place, known, size, -⟩ := rep.kid_place mem (getElem?_eq_getElem (by omega : i < _))
        obtain ⟨after, same, -⟩ := rep.kid_place mem (getElem?_eq_getElem less)
        refine Or.inr ⟨?_, ?_, same.trans known.symm⟩
        · rwa [place, size]
        · rw [after, place]
      · refine List.Pairwise.isChain (pairwise_of_forall_mem_list ?_)
        intro before first kids second last final head start
        obtain ⟨parent, mem, rfl⟩ := mem_map.mp first
        obtain ⟨next, present, rfl⟩ := mem_map.mp second
        rw [Option.mem_def, getLast?_eq_getElem?] at final
        rw [Option.mem_def, head?_eq_getElem?] at start
        obtain ⟨place, -, size, -⟩ := rep.kid_place mem final
        have two := rep.kid_count mem
        exact Or.inl ⟨by rw [place, size]; omega, (rep.kid_place present start).1⟩
    · grind [kid_count]
  · rw [rep.valid.top]
    exact .singleton _

theorem RepBut.serialize_fits (rep : Rep t y) (orders : t.order < 50) (sizes : t.entries < 50)
    (mem : node ∈ y.nodes k) (row : Nat → Int) : (t.heap.serialize k row node).length ≤ PAGESIZE := by
  cases k with
  | zero =>
    obtain ⟨holds, -, most, -⟩ := rep.lies 0 node mem id
    rw [Heap.serialize, bplusLeafSerialize_length, holds.leafCount, PAGESIZE]
    omega
  | succ k =>
    obtain ⟨holds, -, most, -⟩ := rep.lies (k + 1) node mem id
    rw [Heap.serialize, bplusNonLeafSerialize_length, holds.count, PAGESIZE]
    omega

theorem RepBut.walkable (rep : Rep t y) (orders : t.order < 50) (sizes : t.entries < 50) (inside : k ≤ y.level) :
    Walkable t.heap (t.heap.serialize k) k (y.nodes k) := by
  have height := rep.height
  have valid := rep.valid
  have below : ∀ node ∈ y.nodes k, ∀ parent, t.heap.parent node = some parent → k < y.level := by
    grind [Layout.Valid.top, top]
  refine ⟨fun node mem row => rep.serialize_fits orders sizes mem row, ?_, valid.nodup k, ?_, ?_,
    rep.chain k inside, ?_⟩
  · have forward := (rep.rings k (by omega)).forward
    obtain ⟨first, rest, list⟩ := exists_cons_of_ne_nil (rep.nodes_ne_nil inside)
    grind [comp_def]
  · intro a first b second known
    obtain ⟨parent, above, slot⟩ := rep.has_place second (below b second a known)
    have same := (rep.kid_place above slot).2.1
    grind [Layout.Valid.apart]
  · intro node mem parent known
    obtain ⟨own, above, slot⟩ := rep.has_place mem (below node mem parent known)
    obtain ⟨-, same, -, pointer, -⟩ := rep.kid_place above slot
    rw [known, Option.some.injEq] at same
    rw [same, pointer]
  · intro many node mem
    have low : k < y.level := by
      grind [Layout.Valid.top]
    obtain ⟨parent, above, slot⟩ := rep.has_place mem low
    rw [(rep.kid_place above slot).2.1]
    rfl

/-- The page at this place is that of a node of level `k`, and the places it
gives for the children are those of their pages. -/
def Filed (h : Heap) (file : PageFile) : Nat → Addr → Nat → Prop
  | 0, leaf, place => place < file.offset ∧ ∃ rest, file.disk place = h.bplusLeafSerialize leaf ++ rest
  | k + 1, node, place => place < file.offset ∧ ∃ row rest,
      file.disk place = h.bplusNonLeafSerialize row node ++ rest ∧
        ∀ i < h.count node, ∃ sub : Nat, row i = sub ∧ Filed h file k (h.subPtr node i) sub

variable {h : Heap} {file file' : PageFile}

theorem Filed.later (filed : Filed h file k node place) (further : file.offset ≤ file'.offset)
    (kept : ∀ place < file.offset, file'.disk place = file.disk place) : Filed h file' k node place := by
  induction k generalizing node place with
  | zero =>
    obtain ⟨before, rest, page⟩ := filed
    exact ⟨before.trans_le further, rest, (kept place before).trans page⟩
  | succ k ih =>
    obtain ⟨before, row, rest, page, subs⟩ := filed
    refine ⟨before.trans_le further, row, rest, (kept place before).trans page, fun i inside => ?_⟩
    grind

/-- All levels below `k` are written, their places are noted on level `k`, and
there is room for the rest in a file of `int64_t` places. -/
structure Stored (t : BplusTree) (y : Shape) (k : Nat) (file : PageFile) : Prop where
  noted : ∀ j, j + 1 = k → ∀ node ∈ y.nodes k, ∀ i < t.heap.count node,
    ∃ sub : Nat, file.chindrenoffset node i = sub ∧ Filed t.heap file j (t.heap.subPtr node i) sub
  room : 48 * file.offset + PAGESIZE * 49 ^ (y.level + 1 - k) ≤ PAGESIZE * 49 ^ (y.level + 1)

theorem RepBut.nodes_length (rep : Rep t y) (orders : t.order < 50) (inside : k ≤ y.level) :
    (y.nodes k).length ≤ 49 ^ (y.level - k) := by
  induction inside using Nat.decreasingInduction with
  | self => simp [rep.valid.top]
  | of_succ k low ih =>
    have each : ∀ size ∈ (y.nodes (k + 1)).map fun node => (y.kids node).length, size ≤ 49 := by
      intro size present
      obtain ⟨parent, mem, rfl⟩ := mem_map.mp present
      obtain ⟨-, -, most, -⟩ := rep.lies (k + 1) parent mem id
      omega
    have total := sum_le_card_nsmul _ 49 each
    rw [length_map, Nat.nsmul_eq_mul] at total
    rw [rep.valid.flat k low, length_flatMap, show y.level - k = y.level - (k + 1) + 1 by omega, pow_succ]
    exact total.trans (Nat.mul_le_mul_right 49 ih)

theorem storeFrom_walked (rep : Rep t y) (orders : t.order < 50) (sizes : t.entries < 50) (inside : k ≤ y.level)
    (file : PageFile) :
    ∃ file', t.heap.storeFrom file k = some file' ∧ Walked t.heap (t.heap.serialize k) (y.nodes k) file file' := by
  have walkable := rep.walkable orders sizes inside
  have height := rep.height
  obtain ⟨first, rest, list⟩ := exists_cons_of_ne_nil (rep.nodes_ne_nil inside)
  have start : t.heap.links.next (.head k) = .node first := by
    have forward := (rep.rings k (by omega)).forward
    rw [list] at forward
    exact (List.cons.inj forward).1
  have enough := rep.nodes_le_next k
  have counters : (t.heap.parent first).isSome → 0 = t.heap.slotOf first := by
    intro known
    have low : k < y.level := by
      by_contra high
      obtain rfl : k = y.level := by omega
      rw [rep.valid.top, List.cons.injEq] at list
      simp [← list.1, rep.top] at known
    obtain ⟨parent, above, same⟩ := exists_cons_of_ne_nil (rep.nodes_ne_nil (show k + 1 ≤ y.level from low))
    have mem : parent ∈ y.nodes (k + 1) := same ▸ mem_cons_self
    have two := rep.kid_count mem
    rw [rep.valid.flat k low, same, flatMap_cons] at list
    have slot : (y.kids parent)[0]? = some first := by
      rw [← getElem?_append_left (by omega : 0 < (y.kids parent).length), list]
      rfl
    exact (rep.kid_place mem slot).1.symm
  have full : ∀ n, Heap.switches k n n = true := by cases k <;> simp [Heap.switches]
  have more : ∀ n m, n < m → Heap.switches k n m = false := by
    intro n m less
    cases k <;> simp [Heap.switches] <;> omega
  rw [list] at walkable enough ⊢
  rw [Heap.storeFrom, start]
  exact storeLevel_walked full more walkable enough fun known => ⟨counters known, rfl⟩

theorem Stored.filed (stored : Stored t y k file)
    (walked : Walked t.heap (t.heap.serialize k) (y.nodes k) file file') (found : (y.nodes k)[j]? = some node) :
    Filed t.heap file' k node (file.offset + PAGESIZE * j) := by
  have inside := (List.getElem?_eq_some_iff.mp found).1
  have before : file.offset + PAGESIZE * j < file'.offset := by
    rw [walked.offset, PAGESIZE]
    omega
  obtain ⟨rest, page⟩ := walked.pages j node found
  cases k with
  | zero => exact ⟨before, rest, page⟩
  | succ k =>
    refine ⟨before, _, rest, page, fun i less => ?_⟩
    obtain ⟨sub, entry, below⟩ := stored.noted k rfl node (mem_of_getElem? found) i less
    grind [Filed.later, Walked.kept]

theorem Stored.next (rep : Rep t y) (orders : t.order < 50) (inside : k ≤ y.level) (stored : Stored t y k file)
    (walked : Walked t.heap (t.heap.serialize k) (y.nodes k) file file') : Stored t y (k + 1) file' := by
  constructor
  · rintro j same node mem i less
    obtain rfl : j = k := by omega
    have slot : (y.kids node)[i]? = some (t.heap.subPtr node i) := by
      rw [← (rep.lies (j + 1) node mem id).1.2.1, slots_getElem?, if_pos less]
    obtain ⟨place, known, -⟩ := rep.kid_place mem slot
    obtain ⟨p, found⟩ := getElem?_of_mem (rep.valid.kid_mem mem (mem_of_getElem? slot))
    have noted := walked.noted p _ found node known
    rw [place] at noted
    exact ⟨_, noted, stored.filed walked found⟩
  · have many := rep.nodes_length orders inside
    have room := stored.room
    rw [show y.level + 1 - k = y.level - k + 1 by omega, pow_succ] at room
    grind [Walked.offset, PAGESIZE]

theorem storeLevels_stored (rep : Rep t y) (orders : t.order < 50) (sizes : t.entries < 50) (inside : k ≤ y.level)
    (start : file.offset = 0) :
    ∃ file', (range k).foldlM t.heap.storeFrom file = some file' ∧ Stored t y k file' := by
  induction k with
  | zero => exact ⟨file, rfl, ⟨fun j none => absurd none (Nat.succ_ne_zero j), by simp [start]⟩⟩
  | succ k ih =>
    obtain ⟨middle, done, stored⟩ := ih (by omega)
    obtain ⟨file', next, walked⟩ := storeFrom_walked rep orders sizes (by omega : k ≤ y.level) middle
    refine ⟨file', ?_, stored.next rep orders (by omega) walked⟩
    rw [range_succ, foldlM_append, done]
    simpa using next

theorem bplusTreeStore_filed (rep : Rep t y) (orders : t.order < 50) (sizes : t.entries < 50)
    (start : file.offset = 0) : ∃ rootOffset file', bplusTreeStore t file = some (rootOffset, file') ∧
      Filed t.heap file' y.level y.root rootOffset ∧ file'.offset < 2 ^ 63 := by
  obtain ⟨middle, done, stored⟩ := storeLevels_stored rep orders sizes le_rfl
    (show { file with buffer := replicate PAGESIZE '\x00' }.offset = 0 from start)
  obtain ⟨file', last, walked⟩ := storeFrom_walked rep orders sizes le_rfl middle
  refine ⟨middle.offset, file', ?_, ?_, ?_⟩
  · grind [bplusTreeStore, RepBut.level]
  · have top : (y.nodes y.level)[0]? = some y.root := by rw [rep.valid.top]; rfl
    exact stored.filed walked top
  · have room := (stored.next rep orders le_rfl walked).room
    have low : y.level + 1 ≤ 10 := rep.height
    have most := Nat.mul_le_mul_left PAGESIZE (Nat.pow_le_pow_right (by decide : 0 < 49) low)
    rw [PAGESIZE] at room most
    omega

end Levels

end BlockchainPG.Mbt
