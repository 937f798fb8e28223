import BlockchainPG.Lib.Ring
import BlockchainPG.Lib.Slots

/-! The nodes of the Merkle B+-tree as they lie in memory. -/

namespace BlockchainPG.Mbt

open Lib Function

def BPLUS_MIN_ORDER : Nat := 3
def BPLUS_MAX_ORDER : Nat := 50
def BPLUS_MAX_ENTRIES : Nat := 50
def BPLUS_MAX_LEVEL : Nat := 10

def BPLUS_TREE_LEAF : Int := 0
def BPLUS_TREE_NON_LEAF : Int := 1

/-- What a `char` array holds in front of its terminating zero. -/
abbrev CString := List Char

abbrev Addr := Nat

/-- `ItemPointerData`: block number in two halves, and offset. -/
structure ItemPointerData where
  biHi : UInt16
  biLo : UInt16
  ipPosid : UInt16
deriving DecidableEq, Repr

/-- A `node_list_head` is the head `list[k]` of a tree or sits inside a node. -/
inductive Link where
  | head (k : Nat)
  | node (a : Addr)
deriving DecidableEq, Repr

/-- `leaf_new` allocates one heap address cell for each slot of its leaf. -/
structure Cell where
  owner : Addr
  slot : Nat
deriving DecidableEq, Repr

/-- The memory of one tree. Memory that was never written holds anything.
`fault` is raised where the program would fail an assertion, leave an array or
follow a pointer that is no node. -/
structure Heap where
  type : Addr → Int
  parentKeyIdx : Addr → Int
  parent : Addr → Option Addr
  links : Links Link
  /-- `entries` of a leaf, `children` of an inner node. -/
  count : Addr → Nat
  tids : Addr → Nat → Cell
  key : Addr → Nat → Int
  data : Addr → Nat → CString
  subPtr : Addr → Nat → Addr
  childhash : Addr → Nat → CString
  nodeHash : Addr → CString
  nodeId : Addr → Int
  parentId : Addr → Int
  cell : Cell → ItemPointerData
  /-- Nodes are allocated at increasing addresses. -/
  next : Addr
  fault : Bool

structure BplusTree where
  order : Nat
  entries : Nat
  level : Nat
  root : Option Addr
  heap : Heap

namespace Heap

def zeroed : Heap where
  type _ := 0
  parentKeyIdx _ := 0
  parent _ := none
  links := ⟨id, id⟩
  count _ := 0
  tids _ _ := ⟨0, 0⟩
  key _ _ := 0
  data _ _ := []
  subPtr _ _ := 0
  childhash _ _ := []
  nodeHash _ := []
  nodeId _ := 0
  parentId _ := 0
  cell _ := ⟨0, 0, 0⟩
  next := 0
  fault := false

def isLeaf (h : Heap) (node : Addr) : Bool := h.type node = BPLUS_TREE_LEAF

def fail (h : Heap) : Heap := { h with fault := true }

/-- `assert(condition)`. -/
def check (h : Heap) (condition : Bool) : Heap := { h with fault := h.fault || !condition }

/-- `list_next_entry`, when the next link sits inside a node. -/
def listNextEntry (h : Heap) (node : Addr) : Option Addr :=
  match h.links.next (.node node) with
  | .node a => some a
  | .head _ => none

/-- `list_prev_entry`, when the previous link sits inside a node. -/
def listPrevEntry (h : Heap) (node : Addr) : Option Addr :=
  match h.links.prev (.node node) with
  | .node a => some a
  | .head _ => none

def bplusNonLeafInit (h : Heap) (node : Addr) : Heap :=
  { h with
    type := update h.type node (-1)
    parentKeyIdx := update h.parentKeyIdx node 0
    parent := update h.parent node none
    count := update h.count node 0
    nodeId := update h.nodeId node (-1)
    parentId := update h.parentId node (-1)
    key := update h.key node fun _ => 0 }

def bplusLeafInit (h : Heap) (node : Addr) : Heap :=
  { h with
    type := update h.type node (-1)
    parentKeyIdx := update h.parentKeyIdx node 0
    parent := update h.parent node none
    nodeId := update h.nodeId node (-1)
    parentId := update h.parentId node (-1) }

/-- `malloc` of a node gives the address `next`. -/
def malloc (h : Heap) : Heap := { h with next := h.next + 1 }

def nonLeafNew (h : Heap) : Addr × Heap :=
  let node := h.next
  let h := h.malloc.bplusNonLeafInit node
  (node, { h with
    links := h.links.init (.node node)
    type := update h.type node BPLUS_TREE_NON_LEAF
    parentKeyIdx := update h.parentKeyIdx node (-1) })

def leafNew (h : Heap) : Addr × Heap :=
  let node := h.next
  let h := h.malloc.bplusLeafInit node
  (node, { h with
    links := h.links.init (.node node)
    type := update h.type node BPLUS_TREE_LEAF
    parentKeyIdx := update h.parentKeyIdx node (-1)
    tids := update h.tids node fun i => ⟨node, i⟩ })

/-- `non_leaf_delete` and `leaf_delete`: the address is not used again. -/
def nodeDelete (h : Heap) (node : Addr) : Heap := { h with links := h.links.del (.node node) }

/-- The idiom `node->sub_ptr[i] = child`, `node->sub_ptr[i]->parent = node`,
`node->sub_ptr[i]->parent_key_idx = i - 1`. -/
def adopt (h : Heap) (node : Addr) (i : Nat) (child : Addr) : Heap :=
  { h with
    subPtr := update h.subPtr node (update (h.subPtr node) i child)
    parent := update h.parent child (some node)
    parentKeyIdx := update h.parentKeyIdx child (i - 1) }

/-- The same without the parent, where the child already has it. -/
def place (h : Heap) (node : Addr) (i : Nat) (child : Addr) : Heap :=
  { h with
    subPtr := update h.subPtr node (update (h.subPtr node) i child)
    parentKeyIdx := update h.parentKeyIdx child (i - 1) }

def setKey (h : Heap) (node : Addr) (i : Nat) (key : Int) : Heap :=
  { h with key := update h.key node (update (h.key node) i key) }

def setCount (h : Heap) (node : Addr) (n : Nat) : Heap :=
  { h with count := update h.count node n }

end Heap

/-- The loop of `key_binary_search`, at most `fuel` rounds. -/
def keyBinarySearchLoop (arr : Nat → Int) (target : Int) : Nat → Int → Int → Int
  | 0, _, high => high
  | fuel + 1, low, high =>
    if low + 1 < high then
      let mid := low + (high - low) / 2
      if target > arr mid.toNat then keyBinarySearchLoop arr target fuel mid high
      else keyBinarySearchLoop arr target fuel low mid
    else high

/-- The position of the target, or `-p - 1` where it would stand. -/
def keyBinarySearch (arr : Nat → Int) (len : Int) (target : Int) : Int :=
  let high := keyBinarySearchLoop arr target len.toNat (-1) len
  if high ≥ len ∨ arr high.toNat ≠ target then -high - 1 else high

namespace Heap

def childFor (h : Heap) (node : Addr) (key : Int) : Addr :=
  let i := keyBinarySearch (h.key node) (h.count node - 1) key
  if i ≥ 0 then h.subPtr node (i + 1).toNat else h.subPtr node (-i - 1).toNat

/-- The loop of `bplus_tree_insert` and `bplus_tree_delete` down to a leaf. -/
def descend (h : Heap) (key : Int) : Nat → Addr → Option Addr
  | 0, _ => none
  | fuel + 1, node => if h.isLeaf node then some node else h.descend key fuel (h.childFor node key)

end Heap

/-- `bplus_tree_init` in memory of any content. -/
def bplusTreeInit (memory : Heap) (order entries : Nat) : BplusTree where
  order := order
  entries := entries
  level := 0
  root := none
  heap :=
    { memory with
      links := forUp 0 BPLUS_MAX_LEVEL (fun i links => links.init (.head i)) memory.links
      fault := !(order ≤ BPLUS_MAX_ORDER ∧ entries ≤ BPLUS_MAX_ENTRIES) }

end BlockchainPG.Mbt
