import BlockchainPG.Mbt.Tree

/-! Insertion: `leaf_insert` and the way upwards. -/

namespace BlockchainPG.Mbt

open Lib Function

namespace Heap

/-- Store through the pointer `leaf->tids[i]`. -/
def writeTid (h : Heap) (leaf : Addr) (i : Nat) (tid : ItemPointerData) : Heap :=
  { h with cell := update h.cell (h.tids leaf i) tid }

def setData (h : Heap) (leaf : Addr) (i : Nat) (data : CString) : Heap :=
  { h with data := update h.data leaf (update (h.data leaf) i data) }

/-- `for (i = 0, j = 0; i < split; i++, j++)` of `non_leaf_split_left`: the two
new children take two slots of `left` in one round. -/
def replicateKids (h : Heap) (node left lCh rCh : Addr) (insert split : Nat) : Heap :=
  (forUp 0 split (fun i (state : Nat × Heap) =>
    if state.1 = insert then
      (state.1 + 2, (state.2.adopt left state.1 lCh).adopt left (state.1 + 1) rCh)
    else (state.1 + 1, state.2.adopt left state.1 (state.2.subPtr node i))) (0, h)).2

/-- The part of `non_leaf_split_left` that fills `left` and the first slot of `node`. -/
def splitLeftFront (h : Heap) (node left lCh rCh : Addr) (key : Int) (insert split : Nat) : Heap :=
  -- replicate from sub[0] to sub[split - 1]
  let h := h.replicateKids node left lCh rCh insert split
  let h := h.setCount left split
  -- replicate from key[0] to key[split - 2]
  let keys := copyGap (h.key node) (some key) (split - 1) insert split 0 0 (h.key left)
  let h := { h with key := update h.key left keys.2 }
  if insert = split - 1 then
    let h := (h.setKey left insert key).adopt left insert lCh
    let h := { h with parentKeyIdx := update h.parentKeyIdx lCh (keys.1 - 1) }
    h.adopt node 0 rCh
  else h.adopt node 0 (h.subPtr node (split - 1))

def nonLeafSplitLeft (h : Heap) (node left lCh rCh : Addr) (key : Int) (insert : Nat) : Int × Heap :=
  let order := h.count node
  let split := (order + 1) / 2
  let splitKey := if insert = split - 1 then key else h.key node (split - 2)
  -- split as left sibling
  let h := { h with
    links := h.links.addBetween (.node left) (h.links.prev (.node node)) (.node node) }
  let h := h.splitLeftFront node left lCh rCh key insert split
  -- left shift for right node from split - 1 to children - 1
  let h := forUp 0 (order - split) (fun j h =>
    (h.setKey node j (h.key node (split - 1 + j))).adopt node (j + 1) (h.subPtr node (split + j))) h
  let row := update (h.subPtr node) (order - split) (h.subPtr node (order - 1))
  let h := { h with subPtr := update h.subPtr node row }
  (splitKey, h.setCount node (order - split + 1))

def nonLeafSplitRight1 (h : Heap) (node right lCh rCh : Addr) (key : Int) : Int × Heap :=
  let order := h.count node
  let split := (order + 1) / 2
  -- split as right sibling
  let h := { h with links := h.links.add (.node right) (.node node) }
  let splitKey := h.key node (split - 1)
  let h := h.setCount node split
  -- right node's first sub-nodes
  let h := ((h.setKey right 0 key).adopt right 0 lCh).adopt right 1 rCh
  -- insertion point is split point, replicate from key[split]
  let h := forUp 0 (order - 1 - split) (fun j h =>
    (h.setKey right (j + 1) (h.key node (split + j))).adopt right (j + 2) (h.subPtr node (split + j + 1))) h
  (splitKey, h.setCount right (order - 1 - split + 2))

def nonLeafSplitRight2 (h : Heap) (node right lCh rCh : Addr) (key : Int) (insert : Nat) : Int × Heap :=
  let order := h.count node
  let split := (order + 1) / 2
  let hole := insert - split - 1
  let h := h.setCount node (split + 1)
  -- split as right sibling
  let h := { h with links := h.links.add (.node right) (.node node) }
  let splitKey := h.key node split
  -- right node's first sub-node
  let h := h.adopt right 0 (h.subPtr node (split + 1))
  -- replicate from key[split + 1] to key[order - 1]
  let copied := gapLoop (order - 1) hole (fun i j h =>
    (h.setKey right j (h.key node i)).adopt right (j + 1) (h.subPtr node (i + 1)))
    (order - 1 - split) (split + 1) 0 h
  let h := copied.2
  -- reserve a hole for insertion
  let h :=
    if copied.1 > hole then h.setCount right (copied.1 + 1)
    else (h.check (copied.1 = hole)).setCount right (copied.1 + 2)
  -- insert new key and sub-node
  (splitKey, ((h.setKey right hole key).adopt right hole lCh).adopt right (hole + 1) rCh)

def nonLeafSimpleInsert (h : Heap) (node lCh rCh : Addr) (key : Int) (insert : Nat) : Heap :=
  let n := h.count node
  let h := forDown (n - 1) insert (fun i h =>
    (h.setKey node i (h.key node (i - 1))).place node (i + 1) (h.subPtr node i)) h
  (((h.setKey node insert key).place node insert lCh).place node (insert + 1) rCh).setCount node (n + 1)

def leafSplitLeft (h : Heap) (leaf left : Addr) (key : Int) (data : CString) (tid : ItemPointerData)
    (insert : Nat) : Heap :=
  let n := h.count leaf
  let split := (n + 1) / 2
  -- split as left sibling
  let h := { h with
    links := h.links.addBetween (.node left) (h.links.prev (.node leaf)) (.node leaf) }
  -- replicate from 0 to key[split - 2]
  let keys := copyGap (h.key leaf) (some key) (split - 1) insert split 0 0 (h.key left)
  let strings := copyGap (h.data leaf) (some data) (split - 1) insert split 0 0 (h.data left)
  let cells := copyGap (h.tids leaf) none (split - 1) insert split 0 0 (h.tids left)
  let j := keys.1
  let h := { h with
    key := update h.key left keys.2
    data := update h.data left strings.2
    tids := update h.tids left cells.2 }
  let h := if insert < j then h.writeTid left insert tid else h
  let h :=
    if j = insert then
      (((h.setKey left j key).setData left j data).writeTid left j tid).setCount left (j + 1)
    else h.setCount left j
  -- left shift for right node; the strings go to `left`
  let rest := n - (split - 1)
  let h := { h with
    key := update h.key leaf (moveDown (h.key leaf) (split - 1) rest)
    tids := update h.tids leaf (moveDown (h.tids leaf) (split - 1) rest)
    data := update h.data left (copyRow (h.data leaf) (h.data left) 0 (split - 1) rest) }
  h.setCount leaf rest

def leafSplitRight (h : Heap) (leaf right : Addr) (key : Int) (data : CString) (tid : ItemPointerData)
    (insert : Nat) : Heap :=
  let n := h.count leaf
  let split := (n + 1) / 2
  let hole := insert - split
  -- split as right sibling
  let h := { h with links := h.links.add (.node right) (.node leaf) }
  -- replicate from key[split]
  let keys := copyGap (h.key leaf) none n hole (n - split + 1) split 0 (h.key right)
  let strings := copyGap (h.data leaf) none n hole (n - split + 1) split 0 (h.data right)
  let cells := copyGap (h.tids leaf) none n hole (n - split + 1) split 0 (h.tids right)
  let j := keys.1
  let h := { h with
    key := update h.key right keys.2
    data := update h.data right strings.2
    tids := update h.tids right cells.2 }
  -- reserve a hole for insertion
  let h := if j > hole then h.setCount right j else (h.check (j = hole)).setCount right (j + 1)
  -- insert new key
  let h := ((h.setKey right hole key).writeTid right hole tid).setData right hole data
  -- left leaf number
  h.setCount leaf split

def leafSimpleInsert (h : Heap) (leaf : Addr) (key : Int) (data : CString) (tid : ItemPointerData)
    (insert : Nat) : Heap :=
  let n := h.count leaf
  let h := { h with
    key := update h.key leaf (shiftRight (h.key leaf) insert n)
    tids := update h.tids leaf (shiftRight (h.tids leaf) insert n)
    data := update h.data leaf (shiftRight (h.data leaf) insert n) }
  (((h.setKey leaf insert key).writeTid leaf insert tid).setData leaf insert data).setCount leaf (n + 1)

end Heap

/-- `parent_node_build`; the first argument is the call of `non_leaf_insert` upwards. -/
def parentNodeBuild (insert : BplusTree → Addr → Addr → Addr → Int → Int × BplusTree)
    (t : BplusTree) (left right : Addr) (key : Int) : Int × BplusTree :=
  match t.heap.parent left, t.heap.parent right with
  | none, none =>
    -- new parent
    let parent := t.heap.nonLeafNew.1
    let h := t.heap.nonLeafNew.2
    let h := (((h.setKey parent 0 key).adopt parent 0 left).adopt parent 1 right).setCount parent 2
    -- update root
    let level := t.level + 1
    let h := h.check (level < BPLUS_MAX_LEVEL)
    (0, { t with
      root := some parent
      level := level
      heap := { h with links := h.links.add (.node parent) (.head level) } })
  | some parent, none =>
    let h := { t.heap with parent := update t.heap.parent right (some parent) }
    insert { t with heap := h } parent left right key
  | _, some parent =>
    let h := { t.heap with parent := update t.heap.parent left (some parent) }
    insert { t with heap := h } parent left right key

/-- `non_leaf_insert`, through at most `fuel` levels. -/
def nonLeafInsert : Nat → BplusTree → Addr → Addr → Addr → Int → Int × BplusTree
  | 0, t, _, _, _, _ => (0, { t with heap := t.heap.fail })
  | fuel + 1, t, node, lCh, rCh, key =>
    let found := keyBinarySearch (t.heap.key node) (t.heap.count node - 1) key
    let h := t.heap.check (found < 0)
    let insert := (-found - 1).toNat
    if h.count node = t.order then
      let split := (h.count node + 1) / 2
      let sibling := h.nonLeafNew.1
      let h := h.nonLeafNew.2
      let cut :=
        if insert < split then h.nonLeafSplitLeft node sibling lCh rCh key insert
        else if insert = split then h.nonLeafSplitRight1 node sibling lCh rCh key
        else h.nonLeafSplitRight2 node sibling lCh rCh key insert
      -- build new parent
      if insert < split then parentNodeBuild (nonLeafInsert fuel) { t with heap := cut.2 } sibling node cut.1
      else parentNodeBuild (nonLeafInsert fuel) { t with heap := cut.2 } node sibling cut.1
    else (0, { t with heap := h.nonLeafSimpleInsert node lCh rCh key insert })

def leafInsert (t : BplusTree) (leaf : Addr) (key : Int) (data : CString) (tid : ItemPointerData) :
    Int × BplusTree :=
  let found := keyBinarySearch (t.heap.key leaf) (t.heap.count leaf) key
  if found ≥ 0 then (-1, t)
  else
    let insert := (-found - 1).toNat
    if t.heap.count leaf = t.entries then
      let split := (t.entries + 1) / 2
      let sibling := t.heap.leafNew.1
      let h := t.heap.leafNew.2
      let h :=
        if insert < split then h.leafSplitLeft leaf sibling key data tid insert
        else h.leafSplitRight leaf sibling key data tid insert
      -- build new parent
      if insert < split then
        parentNodeBuild (nonLeafInsert (t.level + 1)) { t with heap := h } sibling leaf (h.key leaf 0)
      else
        parentNodeBuild (nonLeafInsert (t.level + 1)) { t with heap := h } leaf sibling (h.key sibling 0)
    else (0, { t with heap := t.heap.leafSimpleInsert leaf key data tid insert })

def bplusTreeInsert (t : BplusTree) (key : Int) (data : CString) (tid : ItemPointerData) : Int × BplusTree :=
  match t.root with
  | some root =>
    match t.heap.descend key (t.level + 1) root with
    | some leaf => leafInsert t leaf key data tid
    | none => (0, { t with heap := t.heap.fail })
  | none =>
    -- new root
    let root := t.heap.leafNew.1
    let h := t.heap.leafNew.2
    let h := (((h.setKey root 0 key).writeTid root 0 tid).setData root 0 data).setCount root 1
    (0, { t with
      root := some root
      heap := { h with links := h.links.add (.node root) (.head t.level) } })

end BlockchainPG.Mbt
