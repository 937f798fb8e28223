import BlockchainPG.Mbt.InnerSplit
import BlockchainPG.Mbt.LeafSplit

/-! Insertion keeps the tree laid out. -/

namespace BlockchainPG.Mbt

open Lib Function List Heap

/-- Two nodes hold what the layout gives to one node of level `k`. -/
structure Parts (t : BplusTree) (y : Shape) (k : Nat) (pair : Pair Addr Int) (node : Addr) : Prop where
  mem : node ∈ y.nodes k
  keys : y.keys node = Layout.joinKeys k pair.firstKeys pair.cut pair.secondKeys
  kids : 0 < k → y.kids node = pair.firstKids ++ pair.secondKids
  cuts : y.Cuts k pair node
  half : node = pair.first ∨ node = pair.second
  first : t.heap.Holds k pair.first pair.firstKids pair.firstKeys
  second : t.heap.Holds k pair.second pair.secondKids pair.secondKeys
  firstSized : Sized t.order t.entries True k pair.firstKids pair.firstKeys
  secondSized : Sized t.order t.entries True k pair.secondKids pair.secondKeys
  fresh : pair.first < t.heap.next ∧ pair.second < t.heap.next

/-- A node of level `k` was cut in two, which its parent does not know yet. -/
structure Halved (t : BplusTree) (y : Shape) (k : Nat) (pair : Pair Addr Int) (node : Addr) : Prop
    extends Parts t y k pair node where
  rest : RepBut (· = node) (replaceNode y.nodes k node [pair.first, pair.second]) t y

/-- The half that is new has no parent. -/
def Orphaned (t : BplusTree) (pair : Pair Addr Int) (node : Addr) : Prop :=
  (pair.first = node ∧ t.heap.parent pair.second = none) ∨ (pair.second = node ∧ t.heap.parent pair.first = none)

/-- A child of `node` was cut into `lCh` and `rCh`. The layout already lists both,
the rows of `node` have only one of them. -/
structure Waiting (t : BplusTree) (y : Shape) (k : Nat) (node lCh rCh : Addr) (key : Int)
    (left right : List Addr) (lower upper : List Int) : Prop where
  rest : RepBut (· = node) y.nodes t y
  mem : node ∈ y.nodes (k + 1)
  kids : y.kids node = left ++ [lCh, rCh] ++ right
  keys : y.keys node = lower ++ [key] ++ upper
  left_length : left.length = lower.length
  type : t.heap.type node = BPLUS_TREE_NON_LEAF
  kidRow : ∃ old, (old = lCh ∨ old = rCh) ∧ slots (t.heap.subPtr node) (t.heap.count node) = left ++ old :: right
  keyRow : slots (t.heap.key node) (t.heap.count node - 1) = lower ++ upper
  parents : ∀ child ∈ y.kids node, t.heap.parent child = some node
  indexes : ∀ i < t.heap.count node, i ≠ left.length → t.heap.parentKeyIdx (t.heap.subPtr node i) = i - 1
  sized : t.heap.count node ≤ t.order ∧ (node ≠ y.root → t.order / 2 ≤ t.heap.count node)

/-- The call returns zero and, if the tree is not too high then, leaves it laid out. -/
def Succeeds (leaves : List Addr) (keys : List Int) (t : BplusTree) (result : Int × BplusTree) : Prop :=
  result.1 = 0 ∧ (result.2.level < BPLUS_MAX_LEVEL → Settles leaves keys t result.2)

theorem Succeeds.after {leaves : List Addr} {keys : List Int} {result : Int × BplusTree}
    (kept : LeavesKept leaves t t') (succeeds : Succeeds leaves keys t' result) : Succeeds leaves keys t result :=
  ⟨succeeds.1, fun height => (succeeds.2 height).after kept⟩

section Receiving

variable {t : BplusTree} {y : Shape} {node lCh rCh : Addr} {key : Int} {left right : List Addr}
  {lower upper : List Int}

section

variable (waiting : Waiting t y k node lCh rCh key left right lower upper)
include waiting

theorem Waiting.kids_length : t.heap.count node = left.length + right.length + 1 := by
  grind [kidRow, slots_length]

theorem Waiting.new_kidRow :
    slots (withKids (t.heap.subPtr node) left.length lCh rCh) (t.heap.count node + 1) = y.kids node := by
  obtain ⟨old, -, row⟩ := waiting.kidRow
  rw [slots_withKids row, waiting.kids]

theorem Waiting.new_keyRow :
    slots (insertAt (t.heap.key node) left.length key) (t.heap.count node) = y.keys node := by
  have size := waiting.kids_length
  have row : slots (insertAt (t.heap.key node) left.length key) (t.heap.count node - 1 + 1) = _ :=
    slots_insertAt (by omega) key
  rw [Nat.sub_add_cancel (by omega), waiting.keyRow, waiting.left_length] at row
  rw [waiting.left_length, row, waiting.keys]
  simp

theorem Waiting.slot_mem (inside : i < t.heap.count node) : t.heap.subPtr node i ∈ y.kids node := by
  obtain ⟨old, half, row⟩ := waiting.kidRow
  have present : t.heap.subPtr node i ∈ left ++ old :: right := row ▸ mem_slots.mpr ⟨i, inside, rfl⟩
  rw [waiting.kids]
  grind

theorem Waiting.receives : t.heap.Receives node lCh rCh left.length := by
  have size := waiting.kids_length
  have distinct := waiting.rest.valid.kids_nodup waiting.mem
  rw [← waiting.new_kidRow] at distinct
  obtain ⟨old, half, row⟩ := waiting.kidRow
  have slot : t.heap.subPtr node left.length = old := by
    have here : (slots (t.heap.subPtr node) (t.heap.count node))[left.length]? = some old := by simp [row]
    grind [slots_getElem?]
  refine ⟨by omega, ?_, ?_, ?_, ?_, ?_⟩
  · intro i insideI j insideJ same
    exact slots_injective distinct (by omega) (by omega) same
  · grind [parents, slot_mem, indexes]
  · rwa [slot]
  · exact waiting.parents lCh (by simp [waiting.kids])
  · exact waiting.parents rCh (by simp [waiting.kids])

end

theorem Waiting.allocates {h' : Heap} (waiting : Waiting t y k node lCh rCh key left right lower upper)
    (allocates : Heap.Allocates t.heap h' new) :
    Waiting { t with heap := h' } y k node lCh rCh key left right lower upper := by
  have fresh : ∀ j, new ∉ y.nodes j := allocates.address ▸ waiting.rest.outside
  have own : node ≠ new := ne_of_mem_of_not_mem waiting.mem (fresh (k + 1))
  have other : ∀ child ∈ y.kids node, child ≠ new := fun child kid =>
    ne_of_mem_of_not_mem (waiting.rest.valid.kid_mem waiting.mem kid) (fresh k)
  exact
    { waiting with
      rest := waiting.rest.allocates allocates fresh
      type := (allocates.type node own).trans waiting.type
      kidRow := by
        simp only [allocates.subPtr node own, allocates.count node own]
        exact waiting.kidRow
      keyRow := by
        simp only [allocates.key node own, allocates.count node own]
        exact waiting.keyRow
      parents := fun child kid => (allocates.parent child (other child kid)).trans (waiting.parents child kid)
      indexes := fun i inside ne => by
        simp only [allocates.subPtr node own, allocates.count node own] at inside ⊢
        grind [Heap.Allocates.parentKeyIdx, slot_mem, indexes]
      sized := by
        simp only [allocates.count node own]
        exact waiting.sized }

theorem Waiting.position (waiting : Waiting t y k node lCh rCh key left right lower upper) :
    keyBinarySearch (t.heap.key node) (t.heap.count node - 1) key = -left.length - 1 := by
  have size := waiting.kids_length
  have sorted := (waiting.rest.valid.inner waiting.mem).1.1
  rw [waiting.keys, append_assoc, pairwise_append, singleton_append, pairwise_cons] at sorted
  obtain ⟨front, ⟨above, back⟩, across⟩ := sorted
  have below : ∀ other ∈ lower, other < key := fun other mem => across other mem key (mem_cons_self ..)
  have sortedRow : (slots (t.heap.key node) (t.heap.count node - 1)).Pairwise (· < ·) := by
    rw [waiting.keyRow]
    grind
  obtain ⟨p, place, result⟩ := keyBinarySearch_spec sortedRow key
  rw [waiting.keyRow] at place result
  have absent : key ∉ lower ++ upper := by
    grind
  rw [if_neg absent, place.eq_length below above, ← waiting.left_length] at result
  rw [← result]
  congr 1
  omega

theorem kids_elsewhere (valid : y.Valid) (mem : node ∈ y.nodes (k + 1)) (inside : child ∈ y.kids node) :
    ∀ j, ∀ other ∈ y.nodes (j + 1), ¬other = node → ∀ kid ∈ y.kids other, ¬kid = child := by
  grind [Layout.Valid.parent_eq]

theorem Waiting.touches {h' : Heap} {linked : Nat → List Addr} {t' : BplusTree} {rows kids : Addr → Prop}
    (waiting : Waiting t y k node lCh rCh key left right lower upper)
    (rest : RepBut (· = node) linked t' y) (touches : Heap.Touches rows kids t'.heap h')
    (row : ∀ a, rows a → a = node ∨ ∀ j, a ∉ y.nodes j) (kid : ∀ child, kids child → child ∈ y.kids node) :
    RepBut (· = node) linked { t' with heap := h' } y := by
  refine rest.touches touches ?_ ?_ ?_
  · grind
  · intro j other mem ne child own inside
    exact kids_elsewhere rest.valid waiting.mem (kid child inside) j other mem ne child own rfl
  · exact fun inside => rest.valid.root_notKid waiting.mem (kid _ inside)

section

variable (waiting : Waiting t y k node lCh rCh key left right lower upper)
include waiting

theorem Waiting.kid_mem (child : Addr)
    (slot : ∃ i ≤ t.heap.count node, withKids (t.heap.subPtr node) left.length lCh rCh i = child) :
    child ∈ y.kids node := by
  grind [new_kidRow, mem_slots]

theorem Waiting.not_leaf : ∀ leaf ∈ y.nodes 0, leaf ≠ node := by
  rintro leaf mem rfl
  exact waiting.rest.valid.apart 0 (k + 1) (by omega) leaf mem waiting.mem

theorem Waiting.simple (room : t.heap.count node ≠ t.order) : Settles (y.nodes 0) y.leafKeys t
      { t with heap := t.heap.nonLeafSimpleInsert node lCh rCh key left.length } := by
  obtain ⟨touches, filled⟩ := nonLeafSimpleInsert_spec waiting.receives key
  have rest := waiting.touches waiting.rest touches (fun _ => Or.inl) waiting.kid_mem
  have holds := filled.holds (k := k) ((congrFun touches.type node).trans waiting.type)
  rw [waiting.new_kidRow, Nat.add_sub_cancel, waiting.new_keyRow] at holds
  have size : (y.kids node).length = t.heap.count node + 1 := by rw [← waiting.new_kidRow, slots_length]
  have count := waiting.kids_length
  obtain ⟨most, least⟩ := waiting.sized
  refine ⟨⟨y, rest.finish waiting.mem ⟨holds, ?_⟩, rfl, rfl⟩, LeavesKept.touches touches waiting.not_leaf⟩
  exact ⟨by omega, by simp only; omega, fun bound => by have := least bound; simp only; omega⟩

end

def innerPair (first second : Addr) (children : List Addr) (keys : List Int) (cut : Nat) (key : Int) :
    Pair Addr Int where
  parent := first
  left := []
  right := []
  lower := []
  upper := []
  first := first
  second := second
  firstKids := children.take cut
  secondKids := children.drop cut
  firstKeys := keys.take (cut - 1)
  secondKeys := keys.drop cut
  cut := key

theorem Waiting.halved {h' : Heap} {links : Links Link} {first second sibling : Addr}
    (waiting : Waiting t y k node lCh rCh key left right lower upper)
    (halves : Heap.Halves { t.heap with links := links } h' node sibling first second (t.heap.count node) cut
      (withKids (t.heap.subPtr node) left.length lCh rCh) (insertAt (t.heap.key node) left.length key))
    (rings : Rings links (replaceNode y.nodes (k + 1) node [first, second]))
    (ends : (first = node ∧ second = sibling) ∨ (second = node ∧ first = sibling))
    (fresh : ∀ j, sibling ∉ y.nodes j) (known : sibling < t.heap.next)
    (orphan : t.heap.parent sibling = none) (type : t.heap.type sibling = BPLUS_TREE_NON_LEAF)
    (low : 2 ≤ cut ∧ t.order / 2 ≤ cut ∧ cut ≤ t.order)
    (high : 2 ≤ t.heap.count node + 1 - cut ∧ t.order / 2 ≤ t.heap.count node + 1 - cut ∧
      t.heap.count node + 1 - cut ≤ t.order) :
    let pair := innerPair first second (y.kids node) (y.keys node) cut
      (insertAt (t.heap.key node) left.length key (cut - 1))
    Halved { t with heap := h' } y (k + 1) pair node ∧ Orphaned { t with heap := h' } pair node := by
  have kidRow := waiting.new_kidRow
  have keyRow := waiting.new_keyRow
  generalize withKids (t.heap.subPtr node) left.length lCh rCh = kid at *
  generalize insertAt (t.heap.key node) left.length key = row at *
  intro pair
  have kidsLength : (y.kids node).length = t.heap.count node + 1 := by rw [← kidRow, slots_length]
  have keysLength : (y.keys node).length = t.heap.count node := by rw [← keyRow, slots_length]
  have kidIn : ∀ child, (∃ i ≤ t.heap.count node, kid i = child) → child ∈ y.kids node := by
    grind [mem_slots]
  have own : node ≠ sibling := ne_of_mem_of_not_mem waiting.mem (fresh (k + 1))
  have types : h'.type = t.heap.type := halves.touches.type
  have bothInner : t.heap.type first = BPLUS_TREE_NON_LEAF ∧ t.heap.type second = BPLUS_TREE_NON_LEAF := by
    grind [type]
  refine ⟨⟨⟨?_, ?_, ?_, ?_, ?_, ?_, ?_, ?_, ?_, ?_⟩, ?_⟩, ?_⟩
  · exact waiting.mem
  · have inside : cut - 1 < (y.keys node).length := by omega
    have split := take_append_drop (cut - 1) (y.keys node)
    have middle : (y.keys node)[cut - 1] = row (cut - 1) := by simp [← keyRow]
    rw [drop_eq_getElem_cons inside, Nat.sub_add_cancel (by omega), middle] at split
    exact split.symm
  · exact fun _ => (take_append_drop cut (y.kids node)).symm
  · constructor <;> grind [innerPair]
  · rcases ends with ⟨rfl, rfl⟩ | ⟨rfl, rfl⟩
    · exact Or.inl rfl
    · exact Or.inr rfl
  · have holds := halves.first.holds (k := k) ((congrFun types first).trans bothInner.1)
    rwa [← slots_take kid (show cut ≤ t.heap.count node + 1 by omega), kidRow,
      ← slots_take row (show cut - 1 ≤ t.heap.count node by omega), keyRow] at holds
  · have holds := halves.second.holds (k := k) ((congrFun types second).trans bothInner.2)
    rwa [← slots_drop, kidRow, show t.heap.count node + 1 - cut - 1 = t.heap.count node - cut by omega,
      ← slots_drop, keyRow] at holds
  · simp only [pair, innerPair, Sized, length_take]
    omega
  · simp only [pair, innerPair, Sized, length_drop]
    omega
  · have next : h'.next = t.heap.next := halves.touches.next
    have before : node < t.heap.next := waiting.rest.fresh (k + 1) node waiting.mem
    grind [innerPair]
  · have rows : ∀ a, a = node ∨ a = sibling → a = node ∨ ∀ j, a ∉ y.nodes j := by
      grind
    have touched := waiting.touches (waiting.rest.relink rings) halves.touches rows kidIn
    exact touched
  · have kept : h'.parent sibling = none := (halves.touches.parent sibling fun inside =>
        fresh k (waiting.rest.valid.kid_mem waiting.mem (kidIn sibling inside))).trans orphan
    rcases ends with ⟨rfl, rfl⟩ | ⟨rfl, rfl⟩
    · exact Or.inl ⟨rfl, kept⟩
    · exact Or.inr ⟨rfl, kept⟩

end Receiving

section Passing

variable {t : BplusTree} {y : Shape} {node : Addr} {pair : Pair Addr Int}

theorem Parts.lies (parts : Parts t y k pair node) (apart : y'.Apart k pair) :
    ∀ half ∈ [pair.first, pair.second], Lies t y' k half := by
  intro half mem
  rcases mem_pair.mp mem with rfl | rfl
  · exact Lies.of_holds apart.first_kids apart.first_keys parts.first parts.firstSized
  · exact Lies.of_holds apart.second_kids apart.second_keys parts.second parts.secondSized

theorem edit_nodes {y' : Shape} {parent : Addr} {left new right : List Addr} {lower middle cuts upper : List Int}
    (edit : Layout.Edit y y' k parent left [node] new right lower middle cuts upper) (valid : y.Valid) :
    y'.nodes = replaceNode y.nodes k node new := by
  obtain ⟨front, back, before, after⟩ := edit.window valid
  rw [append_assoc, singleton_append] at before
  rw [replaceNode_eq (valid.nodup k) before]
  grind [Layout.Edit.nodes_else]

theorem Parts.touches {h' : Heap} {rows kids : Addr → Prop} (parts : Parts t y k pair node)
    (touches : Heap.Touches rows kids t.heap h') (row : ∀ half ∈ [pair.first, pair.second], ¬rows half)
    (kid : 0 < k → ∀ child ∈ y.kids node, ¬kids child) : Parts { t with heap := h' } y k pair node :=
  { parts with
    first := parts.first.touches touches (row _ (by simp)) fun inner child own =>
      kid inner child (by rw [parts.kids inner]; exact mem_append_left _ own)
    second := parts.second.touches touches (row _ (by simp)) fun inner child own =>
      kid inner child (by rw [parts.kids inner]; exact mem_append_right _ own)
    fresh := touches.next ▸ parts.fresh }

theorem Halved.setParent (halved : Halved t y k pair node) (fresh : ∀ j, new ∉ y.nodes j) (value : Option Addr) :
    Halved { t with heap := { t.heap with parent := update t.heap.parent new value } } y k pair node := by
  have touches : Heap.Touches (fun _ => False) (· = new) t.heap
      { t.heap with parent := update t.heap.parent new value } :=
    ⟨rfl, rfl, rfl, rfl, rfl, fun _ _ => rfl, fun _ _ => rfl, fun _ _ => rfl,
      fun _ out => update_of_ne out _ _, fun _ _ => rfl⟩
  have below : ∀ j, ∀ other ∈ y.nodes (j + 1), ∀ child ∈ y.kids other, child ≠ new :=
    fun j other mem child kid => ne_of_mem_of_not_mem (halved.rest.valid.kid_mem mem kid) (fresh j)
  refine ⟨halved.toParts.touches touches (fun _ _ => id) ?_, halved.rest.touches touches (fun _ _ _ => False.elim)
    (fun j other mem _ => below j other mem) (ne_of_mem_of_not_mem halved.rest.valid.root_mem (fresh _))⟩
  intro inner child kid
  obtain ⟨k, rfl⟩ : ∃ below, k = below + 1 := ⟨k - 1, by omega⟩
  exact below k node halved.mem child kid

theorem Halved.surround (halved : Halved t y k pair node) (parent : Addr) (left right : List Addr)
    (lower upper : List Int) :
    Halved t y k { pair with parent := parent, left := left, right := right, lower := lower, upper := upper }
      node :=
  { halved with
    cuts := ⟨halved.cuts.ne, halved.cuts.first_known, halved.cuts.second_known, halved.cuts.leaf,
      halved.cuts.inner⟩ }

def Surrounded (y : Shape) (k : Nat) (pair : Pair Addr Int) (node : Addr) : Prop :=
  pair.parent ∈ y.nodes (k + 1) ∧ y.kids pair.parent = pair.left ++ node :: pair.right ∧
    y.keys pair.parent = pair.lower ++ pair.upper ∧ pair.left.length = pair.lower.length

theorem Parts.joined (parts : Parts t y k pair node) (around : Surrounded y k pair node) : y.Joined k pair node := by
  obtain ⟨mem, kids, keys, length⟩ := around
  constructor <;> grind [keys, kids]

theorem Parts.rest (parts : Parts t y k pair node) (around : Surrounded y k pair node)
    (rest : RepBut (fun a => a = node ∨ a = pair.parent) (replaceNode y.nodes k node [pair.first, pair.second]) t y) :
    RepBut (· = pair.parent) (y.split k pair node).nodes t (y.split k pair node) := by
  have joined := parts.joined around
  have edit := Layout.split_edit rest.valid joined parts.cuts
  rw [← edit_nodes edit rest.valid] at rest
  refine (rest.weaken _ ?_).edit edit (parts.lies (Layout.split_apart rest.valid joined parts.cuts)) ?_
  · exact fun _ same => same.imp_left mem_singleton.mpr
  · intro half mem
    rcases mem_pair.mp mem with rfl | rfl
    · exact parts.fresh.1
    · exact parts.fresh.2

section

variable (halved : Halved t y k pair node)
include halved

section

variable (around : Surrounded y k pair node)
include around

theorem Halved.parent_ne : pair.parent ≠ node := fun same =>
  halved.rest.valid.apart k (k + 1) (by omega) node halved.mem (same ▸ around.1)

theorem Halved.waiting
    (first : t.heap.parent pair.first = some pair.parent) (second : t.heap.parent pair.second = some pair.parent) :
    Waiting t (y.split k pair node) k pair.parent pair.first pair.second pair.cut pair.left pair.right
      pair.lower pair.upper := by
  have apart := Layout.split_apart halved.rest.valid (halved.joined around) halved.cuts
  obtain ⟨⟨type, kidRow, keyRow, parents⟩, sized⟩ :=
    halved.rest.lies (k + 1) pair.parent around.1 (halved.parent_ne around)
  have size := congrArg List.length kidRow
  rw [slots_length] at size
  have slot : ∀ i < t.heap.count pair.parent, (y.kids pair.parent)[i]? = some (t.heap.subPtr pair.parent i) := by
    intro i inside
    rw [← kidRow, slots_getElem?, if_pos inside]
  constructor
  · exact halved.toParts.rest around (halved.rest.weaken _ fun _ => Or.inl)
  · exact apart.parent_mem
  · exact apart.kids
  · exact apart.keys
  · exact apart.left_length
  · exact type
  · exact ⟨node, halved.half, kidRow.trans around.2.1⟩
  · exact keyRow.trans around.2.2.1
  · intro child kid
    have cases : child = pair.first ∨ child = pair.second ∨ child ∈ y.kids pair.parent := by
      rw [apart.kids] at kid
      rw [around.2.1]
      grind
    grind [mem_iff_getElem?]
  · exact fun i inside _ => (parents i _ (slot i inside)).2
  · rw [size]
    exact sized.2

theorem Halved.split_leafKeys : (y.split k pair node).leafKeys = y.leafKeys :=
  Layout.split_leafKeys halved.rest.valid (halved.joined around) halved.cuts

theorem Halved.split_nodes : (y.split k pair node).nodes = replaceNode y.nodes k node [pair.first, pair.second] :=
  edit_nodes (Layout.split_edit halved.rest.valid (halved.joined around) halved.cuts) halved.rest.valid

end

theorem Halved.exists_surround (inner : node ≠ y.root) :
    ∃ parent left right lower upper, t.heap.parent node = some parent ∧
      Surrounded y k { pair with parent := parent, left := left, right := right, lower := lower, upper := upper }
        node := by
  have valid := halved.rest.valid
  have lower : k < y.level := by
    refine lt_of_le_of_ne (valid.level_le halved.mem) ?_
    rintro rfl
    have top := halved.mem
    rw [valid.top, mem_singleton] at top
    exact inner top
  obtain ⟨parent, mem, kid⟩ := valid.exists_parent halved.mem lower
  obtain ⟨left, right, kids⟩ := append_of_mem kid
  have size := (valid.inner mem).length
  rw [kids, length_append, length_cons] at size
  refine ⟨parent, left, right, (y.keys parent).take left.length, (y.keys parent).drop left.length, ?_,
    mem, kids, (take_append_drop ..).symm, ?_⟩
  · have other : parent ≠ node := fun same =>
      valid.apart k (k + 1) (by omega) node halved.mem (same ▸ mem)
    obtain ⟨⟨-, -, -, parents⟩, -⟩ := halved.rest.lies (k + 1) parent mem other
    exact (parents left.length node (by simp [kids])).1
  · simp only [length_take]
    omega

end

def rootHeap (h : Heap) (root first second : Addr) (cut : Int) : Heap :=
  (((h.setKey root 0 cut).adopt root 0 first).adopt root 1 second).setCount root 2

theorem rootHeap_touches (h : Heap) (root first second : Addr) (cut : Int) :
    Heap.Touches (· = root) (· ∈ [first, second]) h (rootHeap h root first second cut) := by
  have start := Heap.Touches.refl h (· = root) (· ∈ [first, second])
  exact (((start.setKey rfl 0 cut).adopt rfl (by simp) 0).adopt rfl (by simp) 1).setCount rfl 2

theorem rootHeap_holds (cut : Int) (ne : first ≠ second)
    (type : h.type root = BPLUS_TREE_NON_LEAF) :
    (rootHeap h root first second cut).Holds (k + 1) root [first, second] [cut] := by
  have filled : (rootHeap h root first second cut).Filled root 2 (fun i => if i = 0 then first else second)
      fun _ => cut := by
    constructor
    · simp [rootHeap, Heap.setCount]
    · intro i inside
      obtain rfl | rfl : i = 0 ∨ i = 1 := by omega
      all_goals simp [rootHeap, Heap.setCount, Heap.adopt]
    · intro i inside
      obtain rfl : i = 0 := by omega
      simp [rootHeap, Heap.setCount, Heap.adopt, Heap.setKey]
    · intro i inside
      obtain rfl | rfl : i = 0 ∨ i = 1 := by omega
      all_goals simp [rootHeap, Heap.setCount, Heap.adopt, ne]
  exact filled.holds (congrFun (rootHeap_touches h root first second cut).type root ▸ type)

theorem Parts.half_known (parts : Parts t y k pair node) (mem : a ∈ [pair.first, pair.second]) :
    a = node ∨ ∀ j, a ∉ y.nodes j := by
  rcases mem_pair.mp mem with rfl | rfl
  · exact parts.cuts.first_known
  · exact parts.cuts.second_known

theorem Parts.raise (parts : Parts t y k pair node) (below : k ≤ y.level) (fresh : ∀ j, new ∉ y.nodes j)
    (other : ∀ half ∈ [pair.first, pair.second], half ≠ new) :
    Parts t (y.raise new) k { pair with parent := new, left := [], right := [], lower := [], upper := [] } node := by
  have own : node ≠ new := ne_of_mem_of_not_mem parts.mem (fresh k)
  have known : ∀ half ∈ [pair.first, pair.second], half = node ∨ ∀ j, half ∉ (y.raise new).nodes j := by
    intro half mem
    refine (parts.half_known mem).imp_right fun absent j present => ?_
    by_cases above : j = y.level + 1
    · subst above
      simp [Layout.raise, other half mem] at present
    · exact absent j (by simpa [Layout.raise, above] using present)
  have nodes : (y.raise new).nodes k = y.nodes k := update_of_ne (by omega) _ _
  have keys : (y.raise new).keys node = y.keys node := update_of_ne own _ _
  have kids : (y.raise new).kids node = y.kids node := update_of_ne own _ _
  exact
    { parts with
      mem := nodes ▸ parts.mem
      keys := keys ▸ parts.keys
      kids := kids ▸ parts.kids
      cuts := ⟨parts.cuts.ne, known _ (by simp), known _ (by simp), parts.cuts.leaf, parts.cuts.inner⟩ }

theorem Halved.newRoot (halved : Halved t y k pair node) (top : node = y.root)
    (height : t.level + 1 < BPLUS_MAX_LEVEL) : let root := t.heap.nonLeafNew.1
    let h := t.heap.nonLeafNew.2
    Settles (replaceNode y.nodes k node [pair.first, pair.second] 0) y.leafKeys t
      { t with
        root := some root
        level := t.level + 1
        heap := rootHeap { h with links := h.links.add (.node root) (.head (t.level + 1)) } root pair.first
          pair.second pair.cut } := by
  intro root h
  have allocates : Heap.Allocates t.heap h root := nonLeafNew_allocates t.heap
  have valid := halved.rest.valid
  have fresh : ∀ j, root ∉ y.nodes j := allocates.address ▸ halved.rest.outside
  have other : ∀ half ∈ [pair.first, pair.second], half ≠ root := by
    intro half mem
    rw [allocates.address]
    rcases mem_pair.mp mem with rfl | rfl
    · exact Nat.ne_of_lt halved.fresh.1
    · exact Nat.ne_of_lt halved.fresh.2
  have level : k = y.level := by
    by_contra ne
    exact valid.apart k y.level ne node halved.mem (top ▸ valid.root_mem)
  have alone : y.nodes k = [] ++ node :: [] := by rw [level, valid.top, top]; rfl
  have linked : replaceNode y.nodes k node [pair.first, pair.second] =
      update y.nodes k [pair.first, pair.second] := replaceNode_eq (valid.nodup k) alone
  have unlinked : ∀ j, root ∉ replaceNode y.nodes k node [pair.first, pair.second] j := by
    grind [mem_replaceNode]
  let around : Pair Addr Int := { pair with parent := root, left := [], right := [], lower := [], upper := [] }
  have parts : Parts t (y.raise root) k around node := halved.toParts.raise level.le fresh other
  have surrounded : Surrounded (y.raise root) k around node := by
    refine ⟨?_, ?_, ?_, rfl⟩
    · simp [around, Layout.raise, level]
    · simp [around, Layout.raise, top]
    · simp [around, Layout.raise]
  -- the links of the new root
  have rest := halved.rest.allocates allocates unlinked
  have empty : replaceNode y.nodes k node [pair.first, pair.second] (t.level + 1) = [] := by
    rw [linked, halved.rest.level, update_of_ne (by omega), valid.above _ (by omega)]
  have levels := Levels.replaceNode valid.apart halved.mem fun _ => halved.toParts.half_known
  have raised := rest.raise top.symm fresh allocates.newParent
    (by rw [allocates.address, allocates.next]; exact Nat.lt_succ_self _) (halved.rest.level ▸ height)
    (rest.rings.addFirst levels height empty unlinked)
  have nodes : update (replaceNode y.nodes k node [pair.first, pair.second]) (t.level + 1) [root] =
      replaceNode (y.raise root).nodes k node [pair.first, pair.second] := by
    have kept : (y.raise root).nodes k = y.nodes k := update_of_ne (by omega) _ _
    rw [replaceNode_eq (kept ▸ valid.nodup k) (kept.trans alone), linked, halved.rest.level]
    exact update_comm (by omega) _ _ _
  rw [nodes] at raised
  -- the rows of the new root and the parent fields of its children
  have touches := rootHeap_touches { h with links := h.links.add (.node root) (.head (t.level + 1)) } root
    pair.first pair.second pair.cut
  have valid' := valid.raise fresh
  have elsewhere : ∀ j, ∀ a ∈ (y.raise root).nodes (j + 1), ¬(a = node ∨ a = root) →
      ∀ child ∈ (y.raise root).kids a, child ∉ [pair.first, pair.second] := by
    intro j a mem out child kid inside
    rcases parts.half_known inside with rfl | absent
    · refine out (Or.inr (valid'.parent_eq mem surrounded.1 kid ?_))
      rw [surrounded.2.1]
      exact mem_append_right _ (mem_cons_self ..)
    · exact absent j (valid'.kid_mem mem kid)
  have touched := raised.touches touches (fun _ _ _ same => Or.inr same) elsewhere fun inside =>
    other root inside rfl
  have carry : ∀ half ∈ [pair.first, pair.second], ∀ children keys, t.heap.Holds k half children keys →
      (0 < k → children ⊆ y.kids node) → (rootHeap { h with
        links := h.links.add (.node root) (.head (t.level + 1)) } root pair.first pair.second pair.cut).Holds
          k half children keys := by
    intro half mem children keys holds subset
    have below : 0 < k → ∀ child ∈ children, child ≠ root ∧ child ∉ [pair.first, pair.second] := by
      intro inner child kid
      obtain ⟨k, rfl⟩ : ∃ below, k = below + 1 := ⟨k - 1, by omega⟩
      have present := valid.kid_mem halved.mem (subset inner kid)
      refine ⟨ne_of_mem_of_not_mem present (fresh k), fun inside => ?_⟩
      rcases halved.toParts.half_known inside with rfl | absent
      · exact valid.apart k (k + 1) (by omega) child present halved.mem
      · exact absent k present
    have allocated := holds.allocates allocates (other half mem) fun inner own => (below inner root own).1 rfl
    have relinked : ({ h with links := h.links.add (.node root) (.head (t.level + 1)) } : Heap).Holds k half
        children keys := allocated.congr rfl rfl rfl rfl fun _ _ _ => ⟨rfl, rfl⟩
    grind [Heap.Holds.touches]
  let final : BplusTree :=
    { t with
      root := some root
      level := t.level + 1
      heap := rootHeap { h with links := h.links.add (.node root) (.head (t.level + 1)) } root pair.first
        pair.second pair.cut }
  have next : t.heap.next ≤ final.heap.next := (Nat.le_succ _).trans (allocates.next.symm.trans touches.next.symm).le
  have moved : Parts final (y.raise root) k around node := { parts with
      first := carry pair.first (by simp) _ _ halved.first fun inner => halved.kids inner ▸ subset_append_left ..
      second := carry pair.second (by simp) _ _ halved.second fun inner => halved.kids inner ▸ subset_append_right ..
      fresh := ⟨halved.fresh.1.trans_le next, halved.fresh.2.trans_le next⟩ }
  have apart := Layout.split_apart valid' (moved.joined surrounded) moved.cuts
  have edit := Layout.split_edit valid' (moved.joined surrounded) moved.cuts
  have rest' := moved.rest surrounded touched
  have type : h.type root = BPLUS_TREE_NON_LEAF := by simp [h, root, Heap.nonLeafNew]
  have size := halved.rest.order_pos
  have lies : Lies final ((y.raise root).split k around node) (k + 1) root := by
    have kids : ((y.raise root).split k around node).kids root = [pair.first, pair.second] := apart.kids
    have keys : ((y.raise root).split k around node).keys root = [pair.cut] := apart.keys
    rw [Lies, kids, keys]
    refine ⟨rootHeap_holds pair.cut halved.cuts.ne type, ?_, ?_, fun bound => absurd rfl bound⟩
    · exact le_rfl
    · exact (show 2 ≤ t.order by omega)
  have nodes0 : ((y.raise root).split k around node).nodes 0 =
      replaceNode y.nodes k node [pair.first, pair.second] 0 := by
    rw [edit_nodes edit valid']
    exact (congrFun nodes.symm 0).trans (update_of_ne (by omega) _ _)
  refine ⟨⟨_, rest'.finish apart.parent_mem lies, nodes0, ?_⟩, ?_, ?_, rfl, rfl⟩
  · rw [Layout.split_leafKeys valid' (moved.joined surrounded) moved.cuts, Layout.raise_leafKeys fresh]
  · intro leaf mem
    have ne := ne_of_mem_of_not_mem mem (unlinked 0)
    exact ⟨(touches.count leaf ne).trans (allocates.count leaf ne),
      (touches.key leaf ne).trans (allocates.key leaf ne)⟩
  · exact touches.payload

variable {call : BplusTree → Addr → Addr → Addr → Int → Int × BplusTree}

theorem Halved.pass {t' : BplusTree} {y' : Shape} {result : Int × BplusTree} (halved : Halved t y k pair node)
    (around : Surrounded y k pair node) (same : y' = y.split k pair node) (kept : ∀ leaves, LeavesKept leaves t' t)
    (succeeds : Succeeds (y'.nodes 0) y'.leafKeys t result) :
    Succeeds (replaceNode y.nodes k node [pair.first, pair.second] 0) y.leafKeys t' result := by
  rw [same, halved.split_nodes around, halved.split_leafKeys around] at succeeds
  exact succeeds.after (kept _)

theorem parentNodeBuild_spec (halved : Halved t y k pair node) (orphaned : Orphaned t pair node)
    (up : ∀ t' y' parent left right lower upper, y'.level = y.level →
      Waiting t' y' k parent pair.first pair.second pair.cut left right lower upper →
      Succeeds (y'.nodes 0) y'.leafKeys t' (call t' parent pair.first pair.second pair.cut)) :
    Succeeds (replaceNode y.nodes k node [pair.first, pair.second] 0) y.leafKeys t
      (parentNodeBuild call t pair.first pair.second pair.cut) := by
  have ne := halved.cuts.ne
  by_cases top : node = y.root
  · have parentless : t.heap.parent node = none := top ▸ halved.rest.top
    have none : t.heap.parent pair.first = none ∧ t.heap.parent pair.second = none := by
      rcases orphaned with ⟨same, orphan⟩ | ⟨same, orphan⟩
      · exact ⟨same ▸ parentless, orphan⟩
      · exact ⟨orphan, same ▸ parentless⟩
    simp only [parentNodeBuild, none.1, none.2]
    refine ⟨rfl, fun height => ?_⟩
    simp only at height
    simp only [height, decide_true, check_true]
    exact halved.newRoot top height
  · obtain ⟨parent, left, right, lower, upper, known, around⟩ := halved.exists_surround top
    have own : ∀ half ≠ node, half = pair.first ∨ half = pair.second → ∀ j, half ∉ y.nodes j := by
      rintro half other (rfl | rfl)
      · exact halved.cuts.first_known.resolve_left other
      · exact halved.cuts.second_known.resolve_left other
    rcases orphaned with ⟨same, orphan⟩ | ⟨same, orphan⟩
    · have fresh := own pair.second (same ▸ Ne.symm ne) (Or.inr rfl)
      have ready := (halved.setParent fresh (some parent)).surround parent left right lower upper
      have waiting := ready.waiting around
        ((update_of_ne ne _ _).trans (same ▸ known)) (update_self ..)
      simp only [parentNodeBuild, same ▸ known, orphan]
      exact ready.pass around rfl (fun _ => ⟨fun _ _ => ⟨rfl, rfl⟩, rfl, rfl, rfl⟩) (up _ _ _ _ _ _ _ rfl waiting)
    · have fresh := own pair.first (same ▸ ne) (Or.inl rfl)
      have ready := (halved.setParent fresh (some parent)).surround parent left right lower upper
      have waiting := ready.waiting around (update_self ..)
        ((update_of_ne ne.symm _ _).trans (same ▸ known))
      simp only [parentNodeBuild, same ▸ known, orphan]
      exact ready.pass around rfl (fun _ => ⟨fun _ _ => ⟨rfl, rfl⟩, rfl, rfl, rfl⟩) (up _ _ _ _ _ _ _ rfl waiting)

end Passing

section Upwards

variable {t : BplusTree} {y : Shape} {node lCh rCh : Addr} {key : Int} {left right : List Addr}
  {lower upper : List Int} {call : BplusTree → Addr → Addr → Addr → Int → Int × BplusTree}

theorem Waiting.succeeds_of_halves {result : Int × Heap} {links : Links Link} {first second sibling : Addr}
    (waiting : Waiting t y k node lCh rCh key left right lower upper)
    (halves : Heap.Halves { t.heap with links := links } result.2 node sibling first second (t.heap.count node) cut
        (withKids (t.heap.subPtr node) left.length lCh rCh) (insertAt (t.heap.key node) left.length key) ∧
      result.1 = insertAt (t.heap.key node) left.length key (cut - 1))
    (rings : Rings links (replaceNode y.nodes (k + 1) node [first, second]))
    (ends : (first = node ∧ second = sibling) ∨ (second = node ∧ first = sibling))
    (fresh : ∀ j, sibling ∉ y.nodes j) (known : sibling < t.heap.next)
    (orphan : t.heap.parent sibling = none) (type : t.heap.type sibling = BPLUS_TREE_NON_LEAF)
    (low : 2 ≤ cut ∧ t.order / 2 ≤ cut ∧ cut ≤ t.order)
    (high : 2 ≤ t.heap.count node + 1 - cut ∧ t.order / 2 ≤ t.heap.count node + 1 - cut ∧
      t.heap.count node + 1 - cut ≤ t.order)
    (up : ∀ t' y' parent lCh rCh key left right lower upper, y'.level = y.level →
      Waiting t' y' (k + 1) parent lCh rCh key left right lower upper →
      Succeeds (y'.nodes 0) y'.leafKeys t' (call t' parent lCh rCh key)) :
    Succeeds (y.nodes 0) y.leafKeys t (parentNodeBuild call { t with heap := result.2 } first second result.1) := by
  obtain ⟨halves, value⟩ := halves
  obtain ⟨halved, orphaned⟩ := waiting.halved halves rings ends fresh known orphan type low high
  have passed := parentNodeBuild_spec halved orphaned fun t' y' parent => up t' y' parent _ _ _
  have bottom : ∀ run, replaceNode y.nodes (k + 1) node run 0 = y.nodes 0 := fun run =>
    update_of_ne (by omega) _ _
  rw [bottom] at passed
  have outside : ∀ leaf ∈ y.nodes 0, ¬(leaf = node ∨ leaf = sibling) := by
    grind [not_leaf]
  have kept : LeavesKept (y.nodes 0) t { t with heap := result.2 } :=
    ⟨fun leaf mem => ⟨halves.touches.count leaf (outside leaf mem),
      halves.touches.key leaf (outside leaf mem)⟩, halves.touches.payload, rfl, rfl⟩
  rw [value]
  exact passed.after kept

theorem nonLeafInsert_spec (waiting : Waiting t y k node lCh rCh key left right lower upper)
    (enough : y.level < k + 1 + fuel) :
    Succeeds (y.nodes 0) y.leafKeys t (nonLeafInsert fuel t node lCh rCh key) := by
  induction fuel generalizing t y k node lCh rCh key left right lower upper with
  | zero => exact absurd (waiting.rest.valid.level_le waiting.mem) (by omega)
  | succ fuel ih =>
    have negative : -(left.length : Int) - 1 < 0 := by omega
    have insert : (-(-(left.length : Int) - 1) - 1).toNat = left.length := by omega
    simp only [nonLeafInsert, waiting.position, negative, decide_true, check_true, insert]
    by_cases full : t.heap.count node = t.order
    · rw [if_pos full]
      have valid := waiting.rest.valid
      have allocates := nonLeafNew_allocates t.heap
      have fresh : ∀ j, t.heap.nonLeafNew.1 ∉ y.nodes j := allocates.address ▸ waiting.rest.outside
      have type : t.heap.nonLeafNew.2.type t.heap.nonLeafNew.1 = BPLUS_TREE_NON_LEAF := by
        simp [Heap.nonLeafNew]
      have kept : LeavesKept (y.nodes 0) t { t with heap := t.heap.nonLeafNew.2 } :=
        LeavesKept.allocates allocates rfl (fresh 0)
      have allocated := waiting.allocates allocates
      have known : t.heap.nonLeafNew.1 < t.heap.nonLeafNew.2.next := by
        rw [allocates.address, allocates.next]
        exact Nat.lt_succ_self _
      have other : t.heap.nonLeafNew.1 ≠ node := (ne_of_mem_of_not_mem waiting.mem (fresh (k + 1))).symm
      have count : t.heap.nonLeafNew.2.count node = t.order := (allocates.count node other.symm).trans full
      have small : k + 1 < BPLUS_MAX_LEVEL := (valid.level_le waiting.mem).trans_lt waiting.rest.height
      have inside := allocated.receives.inside
      have order := waiting.rest.order_pos
      have up : ∀ t' y' parent lCh rCh key left right lower upper, y'.level = y.level →
          Waiting t' y' (k + 1) parent lCh rCh key left right lower upper →
          Succeeds (y'.nodes 0) y'.leafKeys t' (nonLeafInsert fuel t' parent lCh rCh key) :=
        fun t' y' parent lCh rCh key left right lower upper same waits => ih waits (by omega)
      rw [full]
      by_cases early : left.length < (t.order + 1) / 2
      · rw [if_pos early, if_pos early]
        have halves := nonLeafSplitLeft_spec allocated.receives other (by simpa [count] using early) key
        exact (allocated.succeeds_of_halves halves (allocated.rest.rings.addBefore valid.apart small (valid.nodup _)
          waiting.mem fresh) (Or.inr ⟨rfl, rfl⟩) fresh known allocates.newParent type
          (by simp only [count]; omega) (by simp only [count]; omega) up).after kept
      · rw [if_neg early, if_neg early]
        have rings := allocated.rest.rings.addAfter valid.apart small (valid.nodup _) waiting.mem fresh
        by_cases here : left.length = (t.order + 1) / 2
        · rw [if_pos here]
          have halves := nonLeafSplitRight1_spec allocated.receives other (by simpa [count] using here) key
          exact (allocated.succeeds_of_halves halves rings (Or.inl ⟨rfl, rfl⟩) fresh known allocates.newParent type
            (by simp only [count]; omega) (by simp only [count]; omega) up).after kept
        · rw [if_neg here]
          have late : (t.order + 1) / 2 < left.length := by omega
          have halves := nonLeafSplitRight2_spec allocated.receives other (by simpa [count] using late) key
          simp only [count] at inside
          exact (allocated.succeeds_of_halves halves rings (Or.inl ⟨rfl, rfl⟩) fresh known allocates.newParent type
            (by simp only [count]; omega) (by simp only [count]; omega) up).after kept
    · rw [if_neg full]
      exact ⟨rfl, fun _ => waiting.simple full⟩

end Upwards

end BlockchainPG.Mbt
