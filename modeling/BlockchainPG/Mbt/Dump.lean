import BlockchainPG.Mbt.Hash

/-! `bplus_tree_dump`: a walk of the tree with a backlog in place of recursion. -/

namespace BlockchainPG.Mbt

open Lib List Relation

/-- An entry of `nbl_stack`, with no node once the last child was taken. -/
structure NodeBacklog where
  node : Option Addr
  nextSubIdx : Nat

/-- The variables of `bplus_tree_dump`. The stack has its top first and `level` is its
length; `used` is the greatest length so far, `drawn` what `key_print64_t` was called on. -/
structure Dump where
  node : Option Addr
  pNbl : Option NodeBacklog
  nblStack : List NodeBacklog
  used : Nat
  drawn : List Addr

namespace Heap

/-- One round of the loop, or nothing where it breaks. -/
def dumpStep (h : Heap) (dump : Dump) : Option Dump :=
  match dump.node with
  | some node =>
    let subIdx := dump.pNbl.elim 0 NodeBacklog.nextSubIdx
    some {
      node := if h.isLeaf node then none else some (h.subPtr node subIdx)
      pNbl := none
      nblStack := (if h.isLeaf node ∨ subIdx + 1 ≥ h.count node then ⟨none, 0⟩ else ⟨some node, subIdx + 1⟩) ::
        dump.nblStack
      used := max dump.used (dump.nblStack.length + 1)
      drawn := if subIdx = 0 then dump.drawn ++ [node] else dump.drawn }
  | none =>
    match dump.nblStack with
    | [] => none
    | top :: rest => some { dump with node := top.node, pNbl := some top, nblStack := rest }

def dumpLoop (h : Heap) : Nat → Dump → Option Dump
  | 0, _ => none
  | fuel + 1, dump => match h.dumpStep dump with
    | none => some dump
    | some next => h.dumpLoop fuel next

/-- A subtree of height `k`, each node before its children. -/
def preorder (h : Heap) : Nat → Addr → List Addr
  | 0, leaf => [leaf]
  | k + 1, node => node :: (h.children node).flatMap (h.preorder k)

end Heap

def bplusTreeDump (t : BplusTree) (fuel : Nat) : Option Dump := t.heap.dumpLoop fuel ⟨t.root, none, [], 0, []⟩

section Walk

variable {h : Heap} {bound k : Nat} {node : Addr}

abbrev Reaches (h : Heap) : Dump → Dump → Prop := ReflTransGen fun dump next => h.dumpStep dump = some next

theorem Reaches.dumpLoop (reaches : Reaches h dump last) (ends : h.dumpStep last = none) :
    ∃ enough, ∀ fuel ≥ enough, h.dumpLoop fuel dump = some last := by
  induction reaches using ReflTransGen.head_induction_on with
  | refl =>
    refine ⟨1, fun fuel more => ?_⟩
    obtain ⟨fuel, rfl⟩ := Nat.exists_eq_add_of_le' more
    rw [Heap.dumpLoop, ends]
  | head step _ ih =>
    obtain ⟨enough, loop⟩ := ih
    refine ⟨enough + 1, fun fuel more => ?_⟩
    obtain ⟨fuel, rfl⟩ := Nat.exists_eq_add_of_le' (Nat.le_of_add_left_le more)
    rw [Heap.dumpLoop, step]
    exact loop fuel (by omega)

/-- The walk below a node draws it in preorder and leaves the backlog as it was. -/
def Visits (h : Heap) (bound k : Nat) (node : Addr) : Prop := ∀ stack used drawn,
  stack.length + k + 1 ≤ bound → used ≤ bound → ∃ used' ≤ bound, Reaches h ⟨some node, none, stack, used, drawn⟩
    ⟨none, some ⟨none, 0⟩, stack, used', drawn ++ h.preorder k node⟩

theorem visits_leaf (leaf : h.isLeaf node = true) : Visits h bound 0 node := by
  intro stack used drawn deep few
  have first : h.dumpStep ⟨some node, none, stack, used, drawn⟩ =
      some ⟨none, none, ⟨none, 0⟩ :: stack, max used (stack.length + 1), drawn ++ [node]⟩ := by
    simp [Heap.dumpStep, leaf]
  exact ⟨max used (stack.length + 1), by omega, .tail (.single first) rfl⟩

/-- The rounds that start at an inner node, from child `i` on. -/
theorem visits_from (inner : h.isLeaf node = false) (visits : ∀ i < h.count node, Visits h bound k (h.subPtr node i))
    (deep : stack.length + k + 2 ≤ bound) (few : used ≤ bound) (rest : i + (n + 1) = h.count node)
    (pNbl : Option NodeBacklog) (index : pNbl.elim 0 NodeBacklog.nextSubIdx = i) :
    ∃ used' ≤ bound, Reaches h ⟨some node, pNbl, stack, used, drawn⟩ ⟨none, some ⟨none, 0⟩, stack, used',
      (if i = 0 then drawn ++ [node] else drawn) ++ (range' i (n + 1)).flatMap fun j =>
      h.preorder k (h.subPtr node j)⟩ := by
  induction n generalizing i pNbl used drawn with
  | zero =>
    obtain ⟨used', few', child⟩ := visits i (by omega) (⟨none, 0⟩ :: stack) (max used (stack.length + 1))
      (if i = 0 then drawn ++ [node] else drawn) (by simp; omega) (by omega)
    refine ⟨used', few', .tail (.head ?_ child) (by simp [Heap.dumpStep])⟩
    simp [Heap.dumpStep, inner, index, ← rest]
  | succ n ih =>
    obtain ⟨used1, few1, child⟩ := visits i (by omega) (⟨some node, i + 1⟩ :: stack) (max used (stack.length + 1))
      (if i = 0 then drawn ++ [node] else drawn) (by simp; omega) (by omega)
    obtain ⟨used', few', others⟩ := @ih used1 (i + 1)
      ((if i = 0 then drawn ++ [node] else drawn) ++ h.preorder k (h.subPtr node i)) few1 (by omega)
      (some ⟨some node, i + 1⟩) rfl
    refine ⟨used', few', .trans (.tail (.head ?_ child) rfl) ?_⟩
    · simp [Heap.dumpStep, inner, index, ← rest]
    · simpa [range'_succ] using others

variable {t : BplusTree} {y : Shape}

theorem RepBut.visits (rep : Rep t y) (mem : node ∈ y.nodes k) : Visits t.heap bound k node := by
  induction k generalizing node with
  | zero => exact visits_leaf (rep.tall mem)
  | succ k ih =>
    intro stack used drawn deep few
    obtain ⟨holds, size⟩ := rep.lies (k + 1) node mem id
    have visits : ∀ i < t.heap.count node, Visits t.heap bound k (t.heap.subPtr node i) := fun i inside =>
      ih (rep.valid.kid_mem mem (holds.2.1 ▸ mem_slots.mpr ⟨i, inside, rfl⟩))
    have full : t.heap.count node - 1 + 1 = t.heap.count node := by grind [Heap.Holds.count, Sized]
    obtain ⟨used', few', reaches⟩ := visits_from (rep.tall mem).1 visits (by omega) few
      ((Nat.zero_add _).trans full) none rfl
    refine ⟨used', few', ?_⟩
    simpa [Heap.preorder, Heap.children, slots, flatMap_map, range_eq_range', full] using reaches

/-- Nodes in preorder are the nodes of all levels. -/
theorem RepBut.preorder_perm (rep : Rep t y) (inside : k ≤ y.level) :
    (y.nodes k).flatMap (t.heap.preorder k) ~ (range (k + 1)).flatMap y.nodes := by
  induction k with
  | zero => simp [Heap.preorder]
  | succ k ih =>
    rw [range_succ, flatMap_append, flatMap_singleton]
    refine (map_append_flatMap_perm _ id _).symm.trans ?_
    rw [map_id]
    have below : (y.nodes (k + 1)).flatMap (fun node => (t.heap.children node).flatMap (t.heap.preorder k)) =
        (y.nodes k).flatMap (t.heap.preorder k) := by
      rw [rep.valid.flat k (by omega), flatMap_assoc]
      exact flatMap_congr fun node mem => by rw [rep.children_eq mem]
    rw [below]
    exact ((ih (by omega)).append_left _).trans perm_append_comm

/-- The dump ends, its backlog never has more than `level + 1` entries, and each
node is drawn once, before its children. -/
def DumpsAll (t : BplusTree) : Prop := ∃ dump, (∃ enough, ∀ fuel ≥ enough, bplusTreeDump t fuel = some dump) ∧
  dump.used ≤ t.level + 1 ∧ dump.drawn = t.root.toList.flatMap (t.heap.preorder t.level) ∧ dump.drawn.Nodup ∧
    ∀ node, node ∈ dump.drawn ↔ ∃ depth ≤ t.level, node ∈ t.nodesAt depth

theorem RepBut.dumpsAll (rep : Rep t y) : DumpsAll t := by
  have valid := rep.valid
  obtain ⟨used, few, reaches⟩ := @RepBut.visits (t.level + 1) _ _ _ _ rep valid.root_mem [] 0 [] (by simp [rep.level])
    (Nat.zero_le _)
  have all := rep.preorder_perm le_rfl
  have once : ((range (y.level + 1)).flatMap y.nodes).Nodup := by
    refine nodup_flatMap.mpr ⟨fun k _ => valid.nodup k, nodup_range.imp ?_⟩
    exact fun ne node first => valid.apart _ _ ne node first
  rw [valid.top, flatMap_singleton] at all
  rw [← rep.root] at reaches
  refine ⟨_, reaches.dumpLoop rfl, few, by simp [rep.root, rep.level], all.nodup_iff.mpr once, fun node => ?_⟩
  refine all.mem_iff.trans ?_
  simp only [mem_flatMap, mem_range, rep.level]
  constructor
  · rintro ⟨k, low, mem⟩
    refine ⟨y.level - k, by omega, ?_⟩
    rwa [rep.nodesAt_eq (by omega), Nat.sub_sub_self (by omega)]
  · rintro ⟨depth, low, mem⟩
    exact ⟨y.level - depth, by omega, rep.nodesAt_eq low ▸ mem⟩

theorem Blank.dumpsAll (blank : Blank t) : DumpsAll t := by
  have start : Reaches t.heap ⟨t.root, none, [], 0, []⟩ ⟨none, none, [], 0, []⟩ := blank.root ▸ .refl
  refine ⟨_, start.dumpLoop rfl, Nat.zero_le _, by simp [blank.root], nodup_nil, fun node => ?_⟩
  simp [blank.level, BplusTree.nodesAt, blank.root]

end Walk

theorem bplusTreeDump_preorder (memory : Heap) (order entries : Nat)
    (orders : BPLUS_MIN_ORDER ≤ order ∧ order ≤ BPLUS_MAX_ORDER) (sizes : 1 ≤ entries ∧ entries ≤ BPLUS_MAX_ENTRIES)
    (calls : List Put)
    (height : Meets put (fun t call => (put t call).level < BPLUS_MAX_LEVEL) (bplusTreeInit memory order entries)
      calls) :
    DumpsAll (run put (bplusTreeInit memory order entries) calls) := by
  obtain ⟨-, -, content, ⟨blank, -⟩ | ⟨y, rep, -⟩, -⟩ := run_hasKeys memory orders sizes height
  · exact blank.dumpsAll
  · exact rep.dumpsAll

theorem bplusTreeDump_preorder_splitsAndMerges : let t := run put (bplusTreeInit Heap.zeroed 3 2) splitsAndMerges
    t.level = 2 ∧ DumpsAll t :=
  ⟨by decide +kernel, bplusTreeDump_preorder Heap.zeroed 3 2 (by decide) (by decide) splitsAndMerges
    (by decide +kernel)⟩

end BlockchainPG.Mbt
