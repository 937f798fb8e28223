import BlockchainPG.Lib.Merkle
import BlockchainPG.Mbt.WellFormed

/-! `hashcompute` over any hash function, and that the root hash binds the whole tree. -/

namespace BlockchainPG.Mbt

open Lib Function List

namespace Heap

def setChildhash (h : Heap) (node : Addr) (i : Nat) (hash : CString) : Heap :=
  { h with childhash := update h.childhash node (update (h.childhash node) i hash) }

def setNodeHash (h : Heap) (node : Addr) (hash : CString) : Heap :=
  { h with nodeHash := update h.nodeHash node hash }

/-- One round of the loop of `hashcompute` over the entries of a leaf. -/
def hashEntry (sha256Pg : CString → CString) (node : Addr) (i : Nat) (s : CString × Heap) : CString × Heap :=
  let hash := sha256Pg (s.2.data node i)
  (s.1 ++ hash, s.2.setChildhash node i hash)

/-- One round of the loop over the children; the first argument is the call for a child. -/
def hashChild (hashcompute : Heap → Addr → CString × Heap) (node : Addr) (i : Nat) (s : CString × Heap) :
    CString × Heap :=
  let sub := hashcompute s.2 (s.2.subPtr node i)
  (s.1 ++ sub.1, sub.2.setChildhash node i sub.1)

/-- `hashcompute` of a node, through at most `fuel` levels. -/
def hashcompute (sha256Pg : CString → CString) : Nat → Heap → Addr → CString × Heap
  | 0, h, _ => ([], h.fail)
  | fuel + 1, h, node =>
    let filled :=
      if h.isLeaf node then forUp 0 (h.count node) (hashEntry sha256Pg node) ([], h)
      else forUp 0 (h.count node) (hashChild (hashcompute sha256Pg fuel) node) ([], h)
    let hash := sha256Pg filled.1
    (hash, filled.2.setNodeHash node hash)

end Heap

/-- `hashcompute(tree->root)`; of a null pointer it is null. -/
def hashcompute (sha256Pg : CString → CString) (t : BplusTree) : Option CString × BplusTree :=
  match t.root with
  | none => (none, t)
  | some root =>
    let hashed := t.heap.hashcompute sha256Pg (t.level + 1) root
    (some hashed.1, { t with heap := hashed.2 })

namespace Heap

variable {sha256Pg : CString → CString} {h h' h'' : Heap}

/-- The subtree of height `k` below a node as a tree of strings. -/
def merkle (h : Heap) : (k : Nat) → Addr → Merkle CString k
  | 0, leaf => slots (h.data leaf) (h.count leaf)
  | k + 1, node => (h.children node).map (h.merkle k)

/-- All leaves below a node are `k` levels below it. -/
def Tall (h : Heap) : Nat → Addr → Prop
  | 0, node => h.isLeaf node = true
  | k + 1, node => h.isLeaf node = false ∧ ∀ kid ∈ h.children node, h.Tall k kid

/-- Only hashes changed. -/
def Rehashes (h h' : Heap) : Prop := h' = { h with childhash := h'.childhash, nodeHash := h'.nodeHash }

theorem Rehashes.refl (h : Heap) : Rehashes h h := rfl

theorem Rehashes.trans (first : Rehashes h h') (second : Rehashes h' h'') : Rehashes h h'' := by
  rw [Rehashes, second, first]

section

variable (rehashes : Rehashes h h')
include rehashes

theorem Rehashes.setChildhash (node : Addr) (i : Nat) (hash : CString) :
    Rehashes h (h'.setChildhash node i hash) := by
  rw [Rehashes, Heap.setChildhash, rehashes]

theorem Rehashes.setNodeHash (node : Addr) (hash : CString) : Rehashes h (h'.setNodeHash node hash) := by
  rw [Rehashes, Heap.setNodeHash, rehashes]

theorem Rehashes.data : h'.data = h.data := by rw [rehashes]

theorem Rehashes.subPtr : h'.subPtr = h.subPtr := by rw [rehashes]

theorem Rehashes.children : h'.children = h.children := by
  funext node
  rw [Heap.children, Heap.children, rehashes]

theorem Rehashes.merkle (k : Nat) (node : Addr) : h'.merkle k node = h.merkle k node := by
  induction k generalizing node with
  | zero => rw [Heap.merkle, Heap.merkle, rehashes]
  | succ k ih =>
    rw [Heap.merkle, Heap.merkle, rehashes.children]
    exact map_congr_left fun kid _ => ih kid

theorem Rehashes.tall (tall : h.Tall k node) : h'.Tall k node := by
  induction k generalizing node with
  | zero => rwa [Tall, isLeaf, rehashes]
  | succ k ih =>
    rw [Tall, rehashes.children]
    refine ⟨?_, fun kid mem => ih (tall.2 kid mem)⟩
    rw [isLeaf, rehashes]
    exact tall.1

end

theorem hashEntry_loop (h : Heap) (node : Addr) (n : Nat) :
    let s := forUp 0 n (hashEntry sha256Pg node) ([], h)
    s.1 = (slots (h.data node) n).flatMap sha256Pg ∧ Rehashes h s.2 := by
  refine forUp_invariant (motive := fun i (s : CString × Heap) =>
    s.1 = (slots (h.data node) i).flatMap sha256Pg ∧ Rehashes h s.2) (Nat.zero_le n) ⟨rfl, Rehashes.refl h⟩ ?_
  grind [Rehashes.data, Rehashes.setChildhash, hashEntry, slots_succ]

theorem hashChild_loop {hashcompute : Heap → Addr → CString × Heap} (value : Addr → CString) (h : Heap) (node : Addr)
    (calls : ∀ i < n, ∀ s, Rehashes h s → (hashcompute s (h.subPtr node i)).1 = value (h.subPtr node i) ∧
        Rehashes s (hashcompute s (h.subPtr node i)).2) :
    let s := forUp 0 n (hashChild hashcompute node) ([], h)
    s.1 = (slots (h.subPtr node) n).flatMap value ∧ Rehashes h s.2 := by
  refine forUp_invariant (motive := fun i (s : CString × Heap) =>
    s.1 = (slots (h.subPtr node) i).flatMap value ∧ Rehashes h s.2) (Nat.zero_le n) ⟨rfl, Rehashes.refl h⟩ ?_
  rintro i ⟨text, s⟩ _ inside ⟨rfl, rehashes⟩
  have same : s.subPtr = h.subPtr := rehashes.subPtr
  obtain ⟨result, more⟩ := calls i inside s rehashes
  simp only [hashChild, same]
  refine ⟨?_, (rehashes.trans more).setChildhash ..⟩
  simp [result, slots_succ]

theorem hashcompute_spec (tall : h.Tall k node) (enough : k < fuel) :
    (h.hashcompute sha256Pg fuel node).1 = Merkle.digest sha256Pg k (h.merkle k node) ∧
      Rehashes h (h.hashcompute sha256Pg fuel node).2 := by
  induction k generalizing h node fuel with
  | zero =>
    obtain ⟨fuel, rfl⟩ : ∃ rest, fuel = rest + 1 := ⟨fuel - 1, by omega⟩
    simp only [hashcompute, show h.isLeaf node = true from tall, ↓reduceIte]
    obtain ⟨text, rehashes⟩ := hashEntry_loop h node (h.count node)
    exact ⟨congrArg sha256Pg text, rehashes.setNodeHash ..⟩
  | succ k ih =>
    obtain ⟨fuel, rfl⟩ : ∃ rest, fuel = rest + 1 := ⟨fuel - 1, by omega⟩
    obtain ⟨inner, kids⟩ := tall
    simp only [hashcompute, inner, Bool.false_eq_true, ↓reduceIte]
    obtain ⟨text, rehashes⟩ := hashChild_loop (n := h.count node)
      (fun kid => Merkle.digest sha256Pg k (h.merkle k kid)) h node fun i inside s rehashes => by
        have tall := rehashes.tall (kids (h.subPtr node i) (mem_slots.mpr ⟨i, inside, rfl⟩))
        rw [← rehashes.merkle]
        exact ih tall (by omega : k < fuel)
    refine ⟨?_, rehashes.setNodeHash ..⟩
    rw [text]
    simp [Heap.merkle, Merkle.digest, children, flatMap_map]

end Heap

/-- The hashes and node ids that `hashcompute` and `set_node_id` leave in the nodes. -/
structure Marks where
  childhash : Addr → Nat → CString
  nodeHash : Addr → CString
  nodeId : Addr → Int
  parentId : Addr → Int

def BplusTree.marked (t : BplusTree) (marks : Marks) : BplusTree :=
  { t with heap := { t.heap with
      childhash := marks.childhash, nodeHash := marks.nodeHash, nodeId := marks.nodeId, parentId := marks.parentId } }

theorem RepBut.marked (rep : Rep t y) (marks : Marks) : Rep (t.marked marks) y :=
  ⟨rep.valid, rep.config, rep.root, rep.level, rep.height, rep.lies, rep.rings, rep.fresh, rep.top, rep.fault⟩

/-- The hash of a subtree of height `k`. -/
def BplusTree.digest (sha256Pg : CString → CString) (t : BplusTree) (k : Nat) (node : Addr) : CString :=
  Merkle.digest sha256Pg k (t.heap.merkle k node)

/-- The hashes stored in the nodes are those of their children and entries. -/
structure Hashed (sha256Pg : CString → CString) (t : BplusTree) : Prop where
  inner : ∀ depth < t.level, ∀ node ∈ t.nodesAt depth, ∀ i < t.heap.count node,
    t.heap.childhash node i = t.digest sha256Pg (t.level - depth - 1) (t.heap.subPtr node i)
  leaf : ∀ leaf ∈ t.nodesAt t.level, ∀ i < t.heap.count leaf, t.heap.childhash leaf i = sha256Pg (t.heap.data leaf i)

section Stored

variable {t : BplusTree} {y : Shape} {sha256Pg : CString → CString} {h h' h'' : Heap}

/-- The hash that belongs in a slot of a node of height `k`. -/
def BplusTree.slotHash (sha256Pg : CString → CString) (t : BplusTree) : Nat → Addr → Nat → CString
  | 0, leaf, i => sha256Pg (t.heap.data leaf i)
  | k + 1, node, i => t.digest sha256Pg k (t.heap.subPtr node i)

def KeepsHashes (sha256Pg : CString → CString) (t : BplusTree) (y : Shape) (h h' : Heap) : Prop :=
  ∀ k, ∀ node ∈ y.nodes k, ∀ i, h.childhash node i = t.slotHash sha256Pg k node i →
    h'.childhash node i = t.slotHash sha256Pg k node i

theorem KeepsHashes.refl : KeepsHashes sha256Pg t y h h := fun _ _ _ _ same => same

theorem KeepsHashes.trans (first : KeepsHashes sha256Pg t y h h') (second : KeepsHashes sha256Pg t y h' h'') :
    KeepsHashes sha256Pg t y h h'' := fun k node mem i same => second k node mem i (first k node mem i same)

theorem keepsHashes_setChildhash {hash : CString} (valid : y.Valid) (mem : node ∈ y.nodes k)
    (right : hash = t.slotHash sha256Pg k node i) : KeepsHashes sha256Pg t y h (h.setChildhash node i hash) := by
  intro j other present m same
  by_cases own : other = node
  · subst own
    obtain rfl : j = k := by
      by_contra level
      exact valid.apart j k level other present mem
    by_cases slot : m = i
    · subst slot
      simp [Heap.setChildhash, right]
    · simpa [Heap.setChildhash, slot] using same
  · simpa [Heap.setChildhash, own] using same

/-- A node and all that is below it. -/
inductive Under (y : Shape) : Addr → Addr → Prop where
  | self : Under y node node
  | deeper (inner : node ∈ y.nodes (k + 1)) (child : kid ∈ y.kids node) (under : Under y kid other) : Under y node other

theorem Under.to_kid (under : Under y node parent) (inner : parent ∈ y.nodes (k + 1)) (child : kid ∈ y.kids parent) :
    Under y node kid := by
  induction under with
  | self => exact .deeper inner child .self
  | deeper above first _ ih => exact .deeper above first (ih inner child)

theorem under_root (valid : y.Valid) (mem : node ∈ y.nodes k) : Under y y.root node := by
  obtain ⟨depth, same⟩ : ∃ depth, y.level = k + depth := ⟨y.level - k, by have := valid.level_le mem; omega⟩
  induction depth generalizing k node with
  | zero =>
    rw [Nat.add_zero] at same
    rw [← same, valid.top] at mem
    obtain rfl := mem_singleton.mp mem
    exact .self
  | succ depth ih =>
    obtain ⟨parent, above, child⟩ := valid.exists_parent mem (by omega)
    exact (ih above (by omega)).to_kid above child

/-- All slots of a node and below it are right. -/
def Filled (sha256Pg : CString → CString) (t : BplusTree) (y : Shape) (h : Heap) (node : Addr) : Prop :=
  ∀ other, Under y node other → ∀ k, other ∈ y.nodes k → ∀ i < t.heap.count other,
    h.childhash other i = t.slotHash sha256Pg k other i

theorem Filled.keeps (filled : Filled sha256Pg t y h node) (keeps : KeepsHashes sha256Pg t y h h') :
    Filled sha256Pg t y h' node := fun other under k mem i inside =>
  keeps k other mem i (filled other under k mem i inside)

theorem RepBut.tall (rep : Rep t y) (mem : node ∈ y.nodes k) : t.heap.Tall k node := by
  induction k generalizing node with
  | zero =>
    have type := (rep.lies 0 node mem id).1.1
    simp [Heap.Tall, Heap.isLeaf, type]
  | succ k ih =>
    have type := (rep.lies (k + 1) node mem id).1.1
    refine ⟨by simp [Heap.isLeaf, type, BPLUS_TREE_LEAF, BPLUS_TREE_NON_LEAF], fun kid present => ?_⟩
    exact ih (rep.valid.kid_mem mem (rep.children_eq mem ▸ present))

theorem RepBut.hashEntry_filled (rep : Rep t y) (mem : node ∈ y.nodes 0) (rehashes : Heap.Rehashes t.heap h) (n : Nat) :
    let s := forUp 0 n (Heap.hashEntry sha256Pg node) ([], h)
    KeepsHashes sha256Pg t y h s.2 ∧ ∀ i < n, s.2.childhash node i = t.slotHash sha256Pg 0 node i := by
  have loop : let s := forUp 0 n (Heap.hashEntry sha256Pg node) ([], h)
      Heap.Rehashes t.heap s.2 ∧ KeepsHashes sha256Pg t y h s.2 ∧
        ∀ i < n, s.2.childhash node i = t.slotHash sha256Pg 0 node i := by
    refine forUp_invariant (motive := fun n (s : CString × Heap) => Heap.Rehashes t.heap s.2 ∧
      KeepsHashes sha256Pg t y h s.2 ∧ ∀ i < n, s.2.childhash node i = t.slotHash sha256Pg 0 node i)
      (Nat.zero_le n) ⟨rehashes, KeepsHashes.refl, fun i low => absurd low (Nat.not_lt_zero i)⟩ ?_
    rintro n s _ _ ⟨same, keeps, filled⟩
    have right : sha256Pg (s.2.data node n) = t.slotHash sha256Pg 0 node n := by
      rw [same.data]
      rfl
    have more : KeepsHashes sha256Pg t y s.2 (Heap.hashEntry sha256Pg node n s).2 :=
      keepsHashes_setChildhash rep.valid mem right
    refine ⟨same.setChildhash .., keeps.trans more, fun i low => ?_⟩
    rcases Nat.lt_succ_iff_lt_or_eq.mp low with before | rfl
    · exact more 0 node mem i (filled i before)
    · simpa [Heap.hashEntry, Heap.setChildhash] using right
  exact loop.2

theorem RepBut.hashChild_filled {compute : Heap → Addr → CString × Heap} (rep : Rep t y) (mem : node ∈ y.nodes (k + 1))
    (rehashes : Heap.Rehashes t.heap h) (calls : ∀ kid ∈ y.kids node, ∀ s, Heap.Rehashes t.heap s →
      (compute s kid).1 = t.digest sha256Pg k kid ∧ Heap.Rehashes s (compute s kid).2 ∧
        KeepsHashes sha256Pg t y s (compute s kid).2 ∧ Filled sha256Pg t y (compute s kid).2 kid) :
    let s := forUp 0 (t.heap.count node) (Heap.hashChild compute node) ([], h)
    KeepsHashes sha256Pg t y h s.2 ∧ ∀ i < t.heap.count node,
      s.2.childhash node i = t.slotHash sha256Pg (k + 1) node i ∧
        Filled sha256Pg t y s.2 (t.heap.subPtr node i) := by
  have loop : let s := forUp 0 (t.heap.count node) (Heap.hashChild compute node) ([], h)
      Heap.Rehashes t.heap s.2 ∧ KeepsHashes sha256Pg t y h s.2 ∧ ∀ i < t.heap.count node,
        s.2.childhash node i = t.slotHash sha256Pg (k + 1) node i ∧
          Filled sha256Pg t y s.2 (t.heap.subPtr node i) := by
    refine forUp_invariant (motive := fun n (s : CString × Heap) => Heap.Rehashes t.heap s.2 ∧
      KeepsHashes sha256Pg t y h s.2 ∧ ∀ i < n, s.2.childhash node i = t.slotHash sha256Pg (k + 1) node i ∧
        Filled sha256Pg t y s.2 (t.heap.subPtr node i))
      (Nat.zero_le _) ⟨rehashes, KeepsHashes.refl, fun i low => absurd low (Nat.not_lt_zero i)⟩ ?_
    rintro n s _ inside ⟨same, keeps, filled⟩
    have kid : t.heap.subPtr node n ∈ y.kids node := rep.children_eq mem ▸ mem_slots.mpr ⟨n, inside, rfl⟩
    obtain ⟨value, rehashed, kept, own⟩ := calls _ kid s.2 same
    have ran : (Heap.hashChild compute node n s).2 = (compute s.2 (t.heap.subPtr node n)).2.setChildhash node n
        (compute s.2 (t.heap.subPtr node n)).1 := by
      rw [Heap.hashChild, same.subPtr]
    have last : KeepsHashes sha256Pg t y (compute s.2 (t.heap.subPtr node n)).2
        (Heap.hashChild compute node n s).2 := by
      rw [ran]
      exact keepsHashes_setChildhash rep.valid mem value
    refine ⟨?_, keeps.trans (kept.trans last), fun i low => ?_⟩
    · rw [ran]
      exact (same.trans rehashed).setChildhash ..
    · rcases Nat.lt_succ_iff_lt_or_eq.mp low with before | rfl
      · exact ⟨(kept.trans last) (k + 1) node mem i (filled i before).1, (filled i before).2.keeps (kept.trans last)⟩
      · refine ⟨?_, own.keeps last⟩
        rw [ran, value]
        simp [Heap.setChildhash, BplusTree.slotHash]
  exact loop.2

theorem RepBut.hashcompute_filled (rep : Rep t y) (mem : node ∈ y.nodes k) (enough : k < fuel)
    (rehashes : Heap.Rehashes t.heap h) : KeepsHashes sha256Pg t y h (h.hashcompute sha256Pg fuel node).2 ∧
      Filled sha256Pg t y (h.hashcompute sha256Pg fuel node).2 node := by
  have count : h.count = t.heap.count := by rw [rehashes]
  induction k generalizing node fuel h with
  | zero =>
    obtain ⟨fuel, rfl⟩ : ∃ rest, fuel = rest + 1 := ⟨fuel - 1, by omega⟩
    have leaf : h.isLeaf node = true := rehashes.tall (rep.tall mem)
    simp only [Heap.hashcompute, leaf, ↓reduceIte]
    obtain ⟨keeps, filled⟩ := rep.hashEntry_filled mem rehashes (h.count node)
    refine ⟨keeps, fun other under j present i inside => ?_⟩
    cases under with
    | self =>
      obtain rfl : j = 0 := by
        by_contra level
        exact rep.valid.apart j 0 level node present mem
      exact filled i (count ▸ inside)
    | deeper inner child _ => exact absurd mem (rep.valid.apart _ 0 (Nat.succ_ne_zero _) node inner)
  | succ k ih =>
    obtain ⟨fuel, rfl⟩ : ∃ rest, fuel = rest + 1 := ⟨fuel - 1, by omega⟩
    have inner : h.isLeaf node = false := (rehashes.tall (rep.tall mem)).1
    simp only [Heap.hashcompute, inner, Bool.false_eq_true, ↓reduceIte, count]
    have calls : ∀ kid ∈ y.kids node, ∀ s : Heap, Heap.Rehashes t.heap s →
        (s.hashcompute sha256Pg fuel kid).1 = t.digest sha256Pg k kid ∧
          Heap.Rehashes s (s.hashcompute sha256Pg fuel kid).2 ∧
          KeepsHashes sha256Pg t y s (s.hashcompute sha256Pg fuel kid).2 ∧
          Filled sha256Pg t y (s.hashcompute sha256Pg fuel kid).2 kid := by
      intro kid present s same
      have low := rep.valid.kid_mem mem present
      have spec : (s.hashcompute sha256Pg fuel kid).1 = Merkle.digest sha256Pg k (s.merkle k kid) ∧
          Heap.Rehashes s (s.hashcompute sha256Pg fuel kid).2 :=
        Heap.hashcompute_spec (same.tall (rep.tall low)) (by omega : k < fuel)
      rw [same.merkle] at spec
      have more := ih low (by omega : k < fuel) same (by rw [same])
      exact ⟨spec.1, spec.2, more.1, more.2⟩
    obtain ⟨keeps, filled⟩ := rep.hashChild_filled mem rehashes calls
    refine ⟨keeps, fun other under j present i inside => ?_⟩
    cases under with
    | self =>
      obtain rfl : j = k + 1 := by
        by_contra level
        exact rep.valid.apart j (k + 1) level node present mem
      exact (filled i inside).1
    | deeper above child under =>
      obtain ⟨place, less, same⟩ := mem_slots.mp ((rep.children_eq mem).symm ▸ child)
      exact (filled place less).2 other (same ▸ under) j present i inside

/-- The marks that `hashcompute(tree->root)` leaves, with the node ids as they were. -/
def hashMarks (sha256Pg : CString → CString) (t : BplusTree) : Marks where
  childhash := (hashcompute sha256Pg t).2.heap.childhash
  nodeHash := (hashcompute sha256Pg t).2.heap.nodeHash
  nodeId := t.heap.nodeId
  parentId := t.heap.parentId

theorem RepBut.hashcompute_hashed (rep : Rep t y) : (hashcompute sha256Pg t).2 = t.marked (hashMarks sha256Pg t) ∧
    Hashed sha256Pg (t.marked (hashMarks sha256Pg t)) := by
  have whole := rep.tall rep.valid.root_mem
  obtain ⟨-, rehashes⟩ : _ ∧ Heap.Rehashes t.heap (t.heap.hashcompute sha256Pg (t.level + 1) y.root).2 :=
    Heap.hashcompute_spec whole (by rw [rep.level]; omega)
  obtain ⟨-, filled⟩ : _ ∧ Filled sha256Pg t y (t.heap.hashcompute sha256Pg (t.level + 1) y.root).2 y.root :=
    rep.hashcompute_filled rep.valid.root_mem (by rw [rep.level]; omega) (Heap.Rehashes.refl t.heap)
  have ran : (hashcompute sha256Pg t).2 = { t with heap := (t.heap.hashcompute sha256Pg (t.level + 1) y.root).2 } := by
    simp only [hashcompute, rep.root]
  have marks : hashMarks sha256Pg t = ⟨(hashcompute sha256Pg t).2.heap.childhash,
    (hashcompute sha256Pg t).2.heap.nodeHash, t.heap.nodeId, t.heap.parentId⟩ := rfl
  generalize (t.heap.hashcompute sha256Pg (t.level + 1) y.root).2 = hashed at rehashes filled ran
  rw [ran] at marks
  have same : (t.marked (hashMarks sha256Pg t)).heap = hashed := by
    rw [marks]
    exact rehashes.symm
  have digests : ∀ k node, (t.marked (hashMarks sha256Pg t)).digest sha256Pg k node = t.digest sha256Pg k node := by
    intro k node
    rw [BplusTree.digest, same, rehashes.merkle, BplusTree.digest]
  have stored : (t.marked (hashMarks sha256Pg t)).heap.childhash = hashed.childhash := by rw [same]
  have laid := rep.marked (hashMarks sha256Pg t)
  refine ⟨?_, ?_, ?_⟩
  · rw [ran, ← same]
    rfl
  · intro depth low node mem i inside
    have low' : depth < t.level := low
    rw [laid.nodesAt_eq (by rw [← rep.level]; omega)] at mem
    have level : y.level - depth = t.level - depth - 1 + 1 := by rw [← rep.level]; omega
    rw [level] at mem
    rw [digests]
    exact (congrFun (congrFun stored node) i).trans (filled node (under_root rep.valid mem) _ mem i inside)
  · intro leaf mem i inside
    rw [laid.leaves_eq] at mem
    exact (congrFun (congrFun stored leaf) i).trans (filled leaf (under_root rep.valid mem) 0 mem i inside)

end Stored

section Binding

variable {t t' : BplusTree} {sha256Pg : CString → CString}

/-- The strings of the leaves from left to right. -/
def leafData (t : BplusTree) : List CString := (t.nodesAt t.level).flatMap (t.heap.merkle 0)

def SameShape (t t' : BplusTree) : Prop :=
  ∀ depth ≤ t.level, (t.nodesAt depth).map t.heap.count = (t'.nodesAt depth).map t'.heap.count

/-- The strings that `hashcompute(tree->root)` hashes. -/
def hashedStrings (sha256Pg : CString → CString) (t : BplusTree) : List CString :=
  t.root.elim [] fun root => Merkle.messages sha256Pg t.level (t.heap.merkle t.level root)

theorem WellFormed.tall (formed : WellFormed t) (known : k + depth = t.level) (mem : node ∈ t.nodesAt depth) :
    t.heap.Tall k node := by
  induction k generalizing depth node with
  | zero =>
    have type := formed.types depth (by omega) node mem
    rw [if_pos (by omega)] at type
    simp [Heap.Tall, Heap.isLeaf, type]
  | succ k ih =>
    have type := formed.types depth (by omega) node mem
    rw [if_neg (by omega)] at type
    refine ⟨by simp [Heap.isLeaf, type, BPLUS_TREE_LEAF, BPLUS_TREE_NON_LEAF], fun kid present => ?_⟩
    have below : kid ∈ t.nodesAt (depth + 1) := mem_flatMap.mpr ⟨node, mem, present⟩
    exact ih (by omega) below

theorem hashcompute_some (formed : WellFormed t) (root : t.root = some node) :
    (hashcompute sha256Pg t).1 = some (Merkle.digest sha256Pg t.level (t.heap.merkle t.level node)) := by
  have tall := formed.tall (Nat.add_zero t.level) (show node ∈ t.nodesAt 0 by simp [BplusTree.nodesAt, root])
  grind [hashcompute, Heap.hashcompute_spec]

theorem levels_eq
    (same : t.root.map (t.heap.merkle t.level) = t'.root.map (t'.heap.merkle t.level)) (known : k + depth = t.level) :
    (t.nodesAt depth).map (t.heap.merkle k) = (t'.nodesAt depth).map (t'.heap.merkle k) := by
  induction depth generalizing k with
  | zero =>
    grind [BplusTree.nodesAt, Option.toList_map]
  | succ depth ih =>
    have above : ∀ u : BplusTree, (u.nodesAt (depth + 1)).map (u.heap.merkle k) =
        ((u.nodesAt depth).map (u.heap.merkle (k + 1))).flatMap Merkle.kids := by
      intro u
      rw [BplusTree.nodesAt, map_flatMap, flatMap_map]
      rfl
    rw [above, above, ih (by omega)]

theorem merkle_arity (h : Heap) (k : Nat) (node : Addr) : (h.merkle k node).arity = h.count node := by
  cases k with
  | zero => exact slots_length ..
  | succ k => simp [Merkle.arity, Merkle.kids, Heap.merkle, Heap.children]

theorem sameShape_of_eq (height : t'.level = t.level)
    (same : t.root.map (t.heap.merkle t.level) = t'.root.map (t'.heap.merkle t.level)) :
    SameShape t t' ∧ leafData t = leafData t' := by
  constructor
  · intro depth inside
    have counts : ∀ u : BplusTree, (u.nodesAt depth).map u.heap.count =
        ((u.nodesAt depth).map (u.heap.merkle (t.level - depth))).map Merkle.arity := by
      grind [map_congr_left, merkle_arity]
    rw [counts, counts, levels_eq same (by omega)]
  · have rows : ∀ u : BplusTree, leafData u = ((u.nodesAt u.level).map (u.heap.merkle 0)).flatMap Merkle.own := by
      intro u
      rw [leafData, flatMap_map]
      rfl
    rw [rows, rows, height, levels_eq same (Nat.zero_add _)]

/-- The root hash binds the shape of a tree and its strings, unless two strings
that are hashed on the way collide. -/
theorem hashcompute_binding (sha256Pg : CString → CString) (width : ∀ text, (sha256Pg text).length = 32)
    (first second : BplusTree) (firstFormed : WellFormed first) (secondFormed : WellFormed second)
    (height : first.level = second.level) (same : (hashcompute sha256Pg first).1 = (hashcompute sha256Pg second).1) :
    Merkle.Collision sha256Pg (hashedStrings sha256Pg first) (hashedStrings sha256Pg second) ∨
      (SameShape first second ∧ leafData first = leafData second) := by
  cases firstRoot : first.root with
  | none =>
    grind [sameShape_of_eq, hashcompute]
  | some root =>
    rw [hashcompute_some firstFormed firstRoot] at same
    cases secondRoot : second.root with
    | none => simp [hashcompute, secondRoot] at same
    | some other =>
      rw [hashcompute_some secondFormed secondRoot, Option.some.injEq, ← height] at same
      rcases Merkle.digest_binding (by omega) width _ _ _ same with collision | equal
      · grind [hashedStrings]
      · grind [sameShape_of_eq]

def firstChars (text : CString) : CString := (text ++ replicate 32 '-').take 32

def threeEntries (first second third : Int) : BplusTree :=
  run put (bplusTreeInit Heap.zeroed 3 2)
    [⟨first, ['a'], ⟨0, 0, 1⟩⟩, ⟨second, ['b'], ⟨0, 0, 2⟩⟩, ⟨third, ['c'], ⟨0, 0, 3⟩⟩]

theorem hashcompute_binding_threeEntries : let first := threeEntries 1 2 3
    let second := threeEntries 10 20 30
    (hashcompute firstChars first).1 = (hashcompute firstChars second).1 ∧
      (Merkle.Collision firstChars (hashedStrings firstChars first) (hashedStrings firstChars second) ∨
        (SameShape first second ∧ leafData first = leafData second)) := by
  intro first second
  have formed : ∀ calls : List Put, Meets put (fun t call => (put t call).level < BPLUS_MAX_LEVEL)
      (bplusTreeInit Heap.zeroed 3 2) calls → WellFormed (run put (bplusTreeInit Heap.zeroed 3 2) calls) :=
    fun calls height => (run_hasKeys Heap.zeroed (by decide) (by decide) height).wellFormed.1
  have same : (hashcompute firstChars first).1 = (hashcompute firstChars second).1 := by decide +kernel
  exact ⟨same, hashcompute_binding firstChars (fun text => by simp [firstChars]) first second
    (formed _ (by decide +kernel)) (formed _ (by decide +kernel)) (by decide +kernel) same⟩

end Binding

end BlockchainPG.Mbt
