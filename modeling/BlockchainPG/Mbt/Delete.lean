import BlockchainPG.Mbt.Insert

/-! Deletion: `leaf_remove` and `non_leaf_remove`. -/

namespace BlockchainPG.Mbt

open Lib Function

/-- The sibling to borrow from or to merge with. -/
inductive Sibling where
  | left (a : Addr)
  | right (a : Addr)
deriving DecidableEq, Repr

namespace Heap

/-- `leaf_sibling_select` and `non_leaf_sibling_select`. A sibling is missing
where the link beside the node is a list head. -/
def siblingSelect (h : Heap) (lSib rSib : Option Addr) (parent : Addr) (i : Int) : Option Sibling :=
  if i = -1 then rSib.map .right
  else if i = h.count parent - 2 then lSib.map .left
  else
    match lSib, rSib with
    | some l, some r => some (if h.count l ≥ h.count r then .left l else .right r)
    | _, _ => none

def nonLeafShiftFromLeft (h : Heap) (node left parent : Addr) (parentKeyIndex remove : Nat) : Heap :=
  -- node's elements right shift
  let h := { h with key := update h.key node (shiftRight (h.key node) 0 remove) }
  let h := forDown (remove + 1) 0 (fun i h => h.place node i (h.subPtr node (i - 1))) h
  -- parent key right rotation
  let h := h.setKey node 0 (h.key parent parentKeyIndex)
  let h := h.setKey parent parentKeyIndex (h.key left (h.count left - 2))
  -- borrow the last sub-node from left sibling
  let h := h.adopt node 0 (h.subPtr left (h.count left - 1))
  h.setCount left (h.count left - 1)

def nonLeafMergeInt64ToLeft (h : Heap) (node left parent : Addr) (parentKeyIndex remove : Nat) : Heap :=
  -- move parent key down
  let h := h.setKey left (h.count left - 1) (h.key parent parentKeyIndex)
  -- merge into left sibling
  let keys := copySkip (h.key node) (h.key left) (h.count left) (h.count node - 1) remove
  let h := { h with key := update h.key left keys.2 }
  let moved := forUp 0 (h.count node) (fun j (state : Nat × Heap) =>
    if j ≠ remove + 1 then (state.1 + 1, state.2.adopt left state.1 (state.2.subPtr node j))
    else state) (h.count left, h)
  -- delete empty node
  (moved.2.setCount left moved.1).nodeDelete node

def nonLeafShiftFromRight (h : Heap) (node right parent : Addr) (parentKeyIndex : Nat) : Heap :=
  -- parent key left rotation
  let h := h.setKey node (h.count node - 1) (h.key parent parentKeyIndex)
  let h := h.setKey parent parentKeyIndex (h.key right 0)
  -- borrow the first sub-node from right sibling
  let h := h.adopt node (h.count node) (h.subPtr right 0)
  let h := h.setCount node (h.count node + 1)
  -- left shift in right sibling
  let h := { h with key := update h.key right (shiftLeft (h.key right) 0 (h.count right - 2)) }
  let h := forUp 0 (h.count right - 1) (fun i h => h.place right i (h.subPtr right (i + 1))) h
  h.setCount right (h.count right - 1)

def nonLeafMergeFromRight (h : Heap) (node right parent : Addr) (parentKeyIndex : Nat) : Heap :=
  let n := h.count node
  -- move parent key down
  let h := h.setKey node (n - 1) (h.key parent parentKeyIndex)
  -- merge from right sibling
  let row := copyRow (h.key right) (h.key node) n 0 (h.count right - 1)
  let h := { h with key := update h.key node row }
  let h := forUp 0 (h.count right) (fun j h => h.adopt node (n + j) (h.subPtr right j)) h
  -- delete empty right sibling
  (h.setCount node (n + h.count right)).nodeDelete right

def nonLeafSimpleRemove (h : Heap) (node : Addr) (remove : Nat) : Heap :=
  let n := h.count node
  let h := h.check (n ≥ 2)
  let h := forUp remove (n - 2) (fun i h =>
    (h.setKey node i (h.key node (i + 1))).place node (i + 1) (h.subPtr node (i + 2))) h
  h.setCount node (n - 1)

def leafShiftFromLeft (h : Heap) (leaf left parent : Addr) (parentKeyIndex remove : Nat) : Heap :=
  -- right shift in leaf node
  let h := { h with
    key := update h.key leaf (shiftRight (h.key leaf) 0 remove)
    data := update h.data leaf (shiftRight (h.data leaf) 0 remove) }
  -- borrow the last element from left sibling
  let h := h.setKey leaf 0 (h.key left (h.count left - 1))
  let h := h.setData leaf 0 (h.data left (h.count left - 1))
  let h := h.setCount left (h.count left - 1)
  -- update parent key
  h.setKey parent parentKeyIndex (h.key leaf 0)

def leafMergeInt64ToLeft (h : Heap) (leaf left : Addr) (remove : Nat) : Heap :=
  -- merge into left sibling
  let keys := copySkip (h.key leaf) (h.key left) (h.count left) (h.count leaf) remove
  let strings := copySkip (h.data leaf) (h.data left) (h.count left) (h.count leaf) remove
  let h := { h with
    key := update h.key left keys.2
    data := update h.data left strings.2 }
  -- delete merged leaf
  (h.setCount left keys.1).nodeDelete leaf

def leafShiftFromRight (h : Heap) (leaf right parent : Addr) (parentKeyIndex : Nat) : Heap :=
  -- borrow the first element from right sibling
  let n := h.count leaf
  let h := (h.setKey leaf n (h.key right 0)).setData leaf n (h.data right 0)
  let h := h.setCount leaf (n + 1)
  -- left shift in right sibling
  let h := { h with
    key := update h.key right (shiftLeft (h.key right) 0 (h.count right - 1))
    data := update h.data right (shiftLeft (h.data right) 0 (h.count right - 1)) }
  let h := h.setCount right (h.count right - 1)
  -- update parent key
  h.setKey parent parentKeyIndex (h.key right 0)

def leafMergeFromRight (h : Heap) (leaf right : Addr) : Heap :=
  let n := h.count leaf
  -- merge from right sibling
  let h := { h with
    key := update h.key leaf (copyRow (h.key right) (h.key leaf) n 0 (h.count right))
    data := update h.data leaf (copyRow (h.data right) (h.data leaf) n 0 (h.count right)) }
  -- delete right sibling
  (h.setCount leaf (n + h.count right)).nodeDelete right

def leafSimpleRemove (h : Heap) (leaf : Addr) (remove : Nat) : Heap :=
  let n := h.count leaf
  let h := { h with
    key := update h.key leaf (shiftLeft (h.key leaf) remove (n - 1))
    data := update h.data leaf (shiftLeft (h.data leaf) remove (n - 1)) }
  h.setCount leaf (n - 1)

end Heap

/-- `non_leaf_remove`, through at most `fuel` levels. -/
def nonLeafRemove : Nat → BplusTree → Addr → Nat → BplusTree
  | 0, t, _, _ => { t with heap := t.heap.fail }
  | fuel + 1, t, node, remove =>
    let h := t.heap
    if h.count node ≤ (t.order + 1) / 2 then
      match h.parent node with
      | some parent =>
        -- decide which sibling to be borrowed from
        let i := h.parentKeyIdx node
        match h.siblingSelect (h.listPrevEntry node) (h.listNextEntry node) parent i with
        | some (.left lSib) =>
          if h.count lSib > (t.order + 1) / 2 then
            { t with heap := h.nonLeafShiftFromLeft node lSib parent i.toNat remove }
          else
            -- trace upwards
            let h := h.nonLeafMergeInt64ToLeft node lSib parent i.toNat remove
            nonLeafRemove fuel { t with heap := h } parent i.toNat
        | some (.right rSib) =>
          -- remove first in case of overflow during merging with sibling
          let h := h.nonLeafSimpleRemove node remove
          if h.count rSib > (t.order + 1) / 2 then
            { t with heap := h.nonLeafShiftFromRight node rSib parent (i + 1).toNat }
          else
            -- trace upwards
            let h := h.nonLeafMergeFromRight node rSib parent (i + 1).toNat
            nonLeafRemove fuel { t with heap := h } parent (i + 1).toNat
        | none => { t with heap := h.fail }
      | none =>
        if h.count node = 2 then
          -- delete old root node
          let h := h.check (remove = 0)
          let child := h.subPtr node 0
          let h := { h with parent := update h.parent child none }
          { t with root := some child, level := t.level - 1, heap := h.nodeDelete node }
        else { t with heap := h.nonLeafSimpleRemove node remove }
    else { t with heap := h.nonLeafSimpleRemove node remove }

def leafRemove (t : BplusTree) (leaf : Addr) (key : Int) : Int × BplusTree :=
  let h := t.heap
  let found := keyBinarySearch (h.key leaf) (h.count leaf) key
  if found < 0 then (-1, t)
  else
    let remove := found.toNat
    if h.count leaf ≤ (t.entries + 1) / 2 then
      match h.parent leaf with
      | some parent =>
        -- decide which sibling to be borrowed from
        let i := h.parentKeyIdx leaf
        match h.siblingSelect (h.listPrevEntry leaf) (h.listNextEntry leaf) parent i with
        | some (.left lSib) =>
          if h.count lSib > (t.entries + 1) / 2 then
            (0, { t with heap := h.leafShiftFromLeft leaf lSib parent i.toNat remove })
          else
            -- trace upwards
            let h := h.leafMergeInt64ToLeft leaf lSib remove
            (0, nonLeafRemove (t.level + 1) { t with heap := h } parent i.toNat)
        | some (.right rSib) =>
          -- remove first in case of overflow during merging with sibling
          let h := h.leafSimpleRemove leaf remove
          if h.count rSib > (t.entries + 1) / 2 then
            (0, { t with heap := h.leafShiftFromRight leaf rSib parent (i + 1).toNat })
          else
            -- trace upwards
            let h := h.leafMergeFromRight leaf rSib
            (0, nonLeafRemove (t.level + 1) { t with heap := h } parent (i + 1).toNat)
        | none => (0, { t with heap := h.fail })
      | none =>
        if h.count leaf = 1 then
          -- delete the only last node
          let h := h.check (key = h.key leaf 0)
          (0, { t with root := none, heap := h.nodeDelete leaf })
        else (0, { t with heap := h.leafSimpleRemove leaf remove })
    else (0, { t with heap := h.leafSimpleRemove leaf remove })

def bplusTreeDelete (t : BplusTree) (key : Int) : Int × BplusTree :=
  match t.root with
  | some root =>
    match t.heap.descend key (t.level + 1) root with
    | some leaf => leafRemove t leaf key
    | none => (-1, { t with heap := t.heap.fail })
  | none => (-1, t)

/-- The deletion marker `"0"`. -/
def zeroString : CString := ['0']

/-- `bplus_tree_put`: data `"0"` deletes, anything else inserts. -/
def bplusTreePut (t : BplusTree) (key : Int) (data : CString) (tid : ItemPointerData) : Int × BplusTree :=
  if data ≠ zeroString then bplusTreeInsert t key data tid else bplusTreeDelete t key

/-- The loop of `bplus_tree_search`. It initialises every inner node on its way. -/
def bplusTreeSearchLoop (key : Int) : Nat → Heap → Addr → CString × Heap
  | 0, h, _ => ([], h.fail)
  | fuel + 1, h, node =>
    if h.isLeaf node then
      let i := keyBinarySearch (h.key node) (h.count node) key
      (if i ≥ 0 then h.data node i.toNat else zeroString, h)
    else
      let h := h.bplusNonLeafInit node
      bplusTreeSearchLoop key fuel h (h.childFor node key)

def minusOneString : CString := ['-', '1']

def bplusTreeSearch (t : BplusTree) (key : Int) : CString × BplusTree :=
  match t.root with
  | some root =>
    let found := bplusTreeSearchLoop key (t.level + 1) t.heap root
    (found.1, { t with heap := found.2 })
  | none => (minusOneString, t)

/-- `bplus_tree_get` returns `"-1"` where the search finds nothing. Its copy of the data has 32 characters of room. -/
def bplusTreeGet (t : BplusTree) (key : Int) : CString × BplusTree :=
  let found := bplusTreeSearch t key
  (if found.1 ≠ zeroString then found.1 else minusOneString, found.2)

end BlockchainPG.Mbt
