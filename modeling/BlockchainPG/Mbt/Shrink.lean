import BlockchainPG.Mbt.InnerRemove
import BlockchainPG.Mbt.LeafRemove

/-! Deletion keeps the tree laid out. -/

namespace BlockchainPG.Mbt

open Lib List Function

/-- The child of `node` behind the separator `remove` is gone. The layout no
longer lists it, the rows of `node` still have it. -/
structure Losing (t : BplusTree) (y : Shape) (k : Nat) (node : Addr) (remove : Nat) : Prop where
  rest : RepBut (· = node) y.nodes t y
  mem : node ∈ y.nodes (k + 1)
  inside : remove + 1 < t.heap.count node
  type : t.heap.type node = BPLUS_TREE_NON_LEAF
  kidRow : slots (removeAt (t.heap.subPtr node) (remove + 1)) (t.heap.count node - 1) = y.kids node
  keyRow : slots (removeAt (t.heap.key node) remove) (t.heap.count node - 2) = y.keys node
  parents : ∀ i < t.heap.count node, i ≠ remove + 1 →
    t.heap.parent (t.heap.subPtr node i) = some node ∧ t.heap.parentKeyIdx (t.heap.subPtr node i) = i - 1
  sized : t.heap.count node ≤ t.order ∧ (node ≠ y.root → t.order / 2 ≤ t.heap.count node)

section Rotating

variable {t : BplusTree} {y : Shape} {pair : Pair Addr Int} {h' : Heap} {kids : Addr → Prop}

def Repairing (pair : Pair Addr Int) (a : Addr) : Prop := a ∈ [pair.first, pair.second] ∨ a = pair.parent

theorem RepBut.repair {rows : Addr → Prop} {linked : Nat → List Addr} (rest : RepBut (Repairing pair) linked t y)
    (apart : y.Apart k pair) (touches : Heap.Touches rows kids (t.heap.withPayload h') h')
    (row : ∀ a, rows a → Repairing pair a)
    (kid : ∀ child, kids child → 0 < k ∧ (child ∈ pair.firstKids ∨ child ∈ pair.secondKids)) :
    RepBut (Repairing pair) linked { t with heap := h' } y := by
  have valid := rest.valid
  -- children of the two siblings are nobody else's
  have family : ∀ child, kids child → ∃ j, ∃ a ∈ [pair.first, pair.second], a ∈ y.nodes (j + 1) ∧ child ∈ y.kids a := by
    intro child inside
    obtain ⟨inner, known⟩ := kid child inside
    obtain ⟨j, rfl⟩ : ∃ j, k = j + 1 := ⟨k - 1, by omega⟩
    rcases known with known | known
    · exact ⟨j, pair.first, by simp, apart.first_mem valid, apart.first_kids inner ▸ known⟩
    · exact ⟨j, pair.second, by simp, apart.second_mem valid, apart.second_kids inner ▸ known⟩
  refine (rest.withPayload h').touches touches (fun j a mem => row a) ?_ ?_
  · intro j a mem out child own inside
    obtain ⟨i, b, half, present, kid⟩ := family child inside
    obtain rfl := valid.parent_eq mem present own kid
    exact out (Or.inl half)
  · grind [Layout.Valid.root_notKid]

theorem Heap.Holds.setSeparator {h : Heap} {children : List Addr} {lower upper : List Int} {cut new : Int}
    (holds : h.Holds (k + 1) node children (lower ++ [cut] ++ upper)) (type : h'.type node = h.type node)
    (count : h'.count node = h.count node) (subPtr : h'.subPtr node = h.subPtr node)
    (key : h'.key node = update (h.key node) lower.length new) (family : ∀ child ∈ children,
      h'.parent child = h.parent child ∧ h'.parentKeyIdx child = h.parentKeyIdx child) :
    h'.Holds (k + 1) node children (lower ++ [new] ++ upper) := by
  obtain ⟨own, kidRow, keyRow, parents⟩ := holds
  refine ⟨type.trans own, by rw [subPtr, count, kidRow], ?_, fun i child found => ?_⟩
  · rw [key, count, slots_update, keyRow]
    simp
  · grind

theorem outside_kids (valid : y.Valid) (apart : y.Apart k pair)
    (kid : ∀ child, kids child → 0 < k ∧ (child ∈ pair.firstKids ∨ child ∈ pair.secondKids))
    (present : child ∈ y.kids pair.parent) : ¬kids child := by
  intro inside
  obtain ⟨inner, known⟩ := kid child inside
  obtain ⟨j, rfl⟩ : ∃ j, k = j + 1 := ⟨k - 1, by omega⟩
  have below : child ∈ y.nodes j := by
    rcases known with known | known
    · exact valid.kid_mem (apart.first_mem valid) (apart.first_kids inner ▸ known)
    · exact valid.kid_mem (apart.second_mem valid) (apart.second_kids inner ▸ known)
  exact valid.apart j (j + 1) (by omega) child below (valid.kid_mem apart.parent_mem present)

theorem RepBut.lies_parent (rest : RepBut (· = node) y.nodes t y) (half : node ∈ [pair.first, pair.second])
    (apart : y.Apart k pair) : Lies t y (k + 1) pair.parent := by
  have level : node ∈ y.nodes k := by
    grind [Layout.Apart.first_mem, valid, Layout.Apart.second_mem]
  refine rest.lies (k + 1) pair.parent apart.parent_mem fun same => ?_
  exact rest.valid.apart k (k + 1) (by omega) node level (same ▸ apart.parent_mem)

section Shifting

variable {firstKids secondKids : List Addr} {firstKeys secondKeys : List Int} {cut : Int}

theorem RepBut.rotate (rest : RepBut (Repairing pair) y.nodes t y) (apart : y.Apart k pair)
    (reparts : Layout.Reparts k pair firstKids secondKids firstKeys secondKeys cut)
    (first : t.heap.Holds k pair.first firstKids firstKeys) (second : t.heap.Holds k pair.second secondKids secondKeys)
    (firstSized : Sized t.order t.entries True k firstKids firstKeys)
    (secondSized : Sized t.order t.entries True k secondKids secondKeys)
    (parent : t.heap.Holds (k + 1) pair.parent (y.kids pair.parent) (pair.lower ++ [cut] ++ pair.upper))
    (parentSized : Sized t.order t.entries (pair.parent ≠ y.root) (k + 1) (y.kids pair.parent) []) :
    Rep t (y.rotate k pair firstKids secondKids firstKeys secondKeys cut) := by
  have valid := rest.valid
  have moved := Layout.rotate_apart valid apart reparts
  have nodes := Layout.rotate_nodes valid apart reparts
  have level : ∀ {a j i}, a ∈ y.nodes j → a ∈ y.nodes i → j = i := by
    grind [Layout.Valid.apart]
  refine ⟨Layout.rotate_valid valid apart reparts, rest.config, rest.root, rest.level, rest.height, ?_,
    nodes ▸ rest.rings, nodes ▸ rest.fresh, rest.top, rest.fault⟩
  intro j a mem _
  rw [nodes] at mem
  by_cases isFirst : a = pair.first
  · subst isFirst
    obtain rfl := level mem (apart.first_mem valid)
    exact Lies.of_holds moved.first_kids moved.first_keys first firstSized
  by_cases isSecond : a = pair.second
  · subst isSecond
    obtain rfl := level mem (apart.second_mem valid)
    exact Lies.of_holds moved.second_kids moved.second_keys second secondSized
  by_cases isParent : a = pair.parent
  · subst isParent
    obtain rfl := level mem apart.parent_mem
    have kids : (y.rotate k pair firstKids secondKids firstKeys secondKeys cut).kids pair.parent =
        y.kids pair.parent := moved.kids.trans apart.kids.symm
    have keys : (y.rotate k pair firstKids secondKids firstKeys secondKeys cut).keys pair.parent =
        pair.lower ++ [cut] ++ pair.upper := moved.keys
    rw [Lies, kids, keys]
    exact ⟨parent, parentSized⟩
  · have out : ¬Repairing pair a := by simp [Repairing, isFirst, isSecond, isParent]
    exact (rest.lies j a mem out).congr rfl (Layout.rotate_else ⟨isFirst, isSecond, isParent⟩)

theorem shift_rep (rest : RepBut (· = node) y.nodes t y) (half : node ∈ [pair.first, pair.second])
    (apart : y.Apart k pair) (reparts : Layout.Reparts k pair firstKids secondKids firstKeys secondKeys cut)
    (touches : Heap.Touches (· ∈ [pair.first, pair.second, pair.parent]) kids (t.heap.withPayload h') h')
    (kid : ∀ child, kids child → 0 < k ∧ (child ∈ pair.firstKids ∨ child ∈ pair.secondKids))
    (first : h'.Holds k pair.first firstKids firstKeys) (second : h'.Holds k pair.second secondKids secondKeys)
    (firstSized : Sized t.order t.entries True k firstKids firstKeys)
    (secondSized : Sized t.order t.entries True k secondKids secondKeys)
    (key : h'.key pair.parent = update (t.heap.key pair.parent) pair.left.length cut)
    (count : h'.count pair.parent = t.heap.count pair.parent)
    (subPtr : h'.subPtr pair.parent = t.heap.subPtr pair.parent) :
    Rep { t with heap := h' } (y.rotate k pair firstKids secondKids firstKeys secondKeys cut) := by
  have valid := rest.valid
  obtain ⟨holds, sized⟩ := rest.lies_parent half apart
  rw [apart.keys] at holds
  have repaired := (rest.weaken (Repairing pair) fun a same => Or.inl (same ▸ half)).repair apart touches
    (fun a => by simp only [Repairing, mem_cons, not_mem_nil]; tauto) kid
  refine repaired.rotate apart reparts first second firstSized secondSized ?_ sized
  refine holds.setSeparator (congrFun touches.type _) count subPtr (apart.left_length ▸ key) fun child present => ?_
  have outside := outside_kids valid apart kid present
  exact ⟨touches.parent child outside, touches.parentKeyIdx child outside⟩

end Shifting

theorem merge_nodes (valid : y.Valid) (apart : y.Apart k pair) :
    (y.merge k pair).nodes = replaceNode y.nodes k pair.second [] := by
  have edit := Layout.merge_edit valid apart
  obtain ⟨front, back, before, after⟩ := edit.window valid
  have around : y.nodes k = (front ++ [pair.first]) ++ pair.second :: back := by simp [before]
  rw [replaceNode_eq (valid.nodup k) around]
  grind [Layout.Edit.nodes_else]

theorem merge_losing (rest : RepBut (· = node) y.nodes t y) (half : node ∈ [pair.first, pair.second])
    (apart : y.Apart k pair) (touches : Heap.Touches (· = pair.first) kids
      (({ t.heap with links := t.heap.links.del (.node pair.second) } : Heap).withPayload h') h')
    (kid : ∀ child, kids child → 0 < k ∧ (child ∈ pair.firstKids ∨ child ∈ pair.secondKids))
    (first : h'.Holds k pair.first (pair.firstKids ++ pair.secondKids)
      (Layout.joinKeys k pair.firstKeys pair.cut pair.secondKeys))
    (sized : Sized t.order t.entries True k (pair.firstKids ++ pair.secondKids)
      (Layout.joinKeys k pair.firstKeys pair.cut pair.secondKeys)) :
    Losing { t with heap := h' } (y.merge k pair) k pair.parent pair.left.length := by
  have valid := rest.valid
  have edit := Layout.merge_edit valid apart
  have joined := Layout.merge_joined valid apart
  have small : k < BPLUS_MAX_LEVEL := (valid.level_le (apart.first_mem valid)).trans_lt rest.height
  have rings := rest.rings.del valid.apart small (valid.nodup k) (apart.second_mem valid)
  rw [← merge_nodes valid apart] at rings
  have repaired := ((rest.relink rings).weaken (Repairing pair) fun a same => Or.inl (same ▸ half)).repair apart
    touches (fun a same => Or.inl (by simp [same])) kid
  have rest' := repaired.edit edit
    (fun a own => mem_singleton.mp own ▸ Lies.of_holds joined.own_kids joined.own_keys first sized)
    (fun a own => repaired.fresh k a (mem_singleton.mp own ▸ apart.first_mem valid))
  obtain ⟨⟨type, kidRow, keyRow, parents⟩, least, most, enough⟩ := rest.lies_parent half apart
  have ne : pair.parent ≠ pair.first := fun same =>
    valid.apart k (k + 1) (by omega) pair.first (apart.first_mem valid) (same ▸ apart.parent_mem)
  have count : h'.count pair.parent = t.heap.count pair.parent := touches.count _ ne
  have subPtr : h'.subPtr pair.parent = t.heap.subPtr pair.parent := touches.subPtr _ ne
  have key : h'.key pair.parent = t.heap.key pair.parent := touches.key _ ne
  have length : t.heap.count pair.parent = (y.kids pair.parent).length := by rw [← kidRow, slots_length]
  have size : (y.kids pair.parent).length = pair.left.length + 2 + pair.right.length := by
    grind [Layout.Apart.kids]
  refine ⟨rest', joined.parent_mem, ?_, (congrFun touches.type _).trans type, ?_, ?_, ?_, ?_⟩
  · simp only [count]
    omega
  · grind [slots_removeAt, Layout.Apart.kids, Layout.Joined.kids]
  · simp only [count, key]
    rw [show t.heap.count pair.parent - 2 = t.heap.count pair.parent - 1 - 1 by omega, slots_removeAt (by omega),
      keyRow, apart.keys, joined.keys, apart.left_length]
    simp [eraseIdx_append]
  · intro i inside _
    simp only [count, subPtr] at inside ⊢
    have slot : (y.kids pair.parent)[i]? = some (t.heap.subPtr pair.parent i) := by
      rw [← kidRow, slots_getElem?, if_pos inside]
    have outside := outside_kids valid apart kid (mem_of_getElem? slot)
    rw [touches.parent _ outside, touches.parentKeyIdx _ outside]
    exact parents i _ slot
  · simp only [count, length]
    exact ⟨most, enough⟩

end Rotating

section Selecting

variable {t : BplusTree} {y : Shape} {node : Addr}

/-- Two neighbouring children of a node as they are. -/
def siblingPair (y : Shape) (parent : Addr) (left : List Addr) (first second : Addr) (right : List Addr) :
    Pair Addr Int where
  parent := parent
  left := left
  right := right
  lower := (y.keys parent).take left.length
  upper := (y.keys parent).drop (left.length + 1)
  first := first
  second := second
  firstKids := y.kids first
  secondKids := y.kids second
  firstKeys := y.keys first
  secondKeys := y.keys second
  cut := (y.keys parent).getD left.length 0

theorem siblingPair_apart (valid : y.Valid) (mem : parent ∈ y.nodes (k + 1))
    (kids : y.kids parent = left ++ [first, second] ++ right) :
    y.Apart k (siblingPair y parent left first second right) := by
  have size := (valid.inner mem).length
  rw [kids] at size
  simp only [length_append, length_cons, length_nil] at size
  have inside : left.length < (y.keys parent).length := by omega
  constructor <;> grind [siblingPair, drop_eq_getElem_cons, take_append_drop]

theorem select_sibling (rest : RepBut (· = node) y.nodes t y) (mem : node ∈ y.nodes k) (inner : node ≠ y.root) :
    ∃ parent ∈ y.nodes (k + 1), t.heap.parent node = some parent ∧
      let chosen := t.heap.siblingSelect (t.heap.listPrevEntry node) (t.heap.listNextEntry node) parent
        (t.heap.parentKeyIdx node)
      (∃ left l right, y.kids parent = left ++ [l, node] ++ right ∧ t.heap.parentKeyIdx node = left.length ∧
          chosen = some (.left l)) ∨
        ∃ left r right, y.kids parent = left ++ [node, r] ++ right ∧ t.heap.parentKeyIdx node = left.length - 1 ∧
          chosen = some (.right r) := by
  have valid := rest.valid
  have lower : k < y.level := by
    refine lt_of_le_of_ne (valid.level_le mem) ?_
    grind [Layout.Valid.top]
  obtain ⟨parent, above, kid⟩ := valid.exists_parent mem lower
  have other : parent ≠ node := fun same => valid.apart k (k + 1) (by omega) node mem (same ▸ above)
  obtain ⟨⟨-, kidRow, -, parents⟩, least, -⟩ := rest.lies (k + 1) parent above other
  obtain ⟨left, right, kids⟩ := append_of_mem kid
  obtain ⟨known, index⟩ := parents left.length node (by simp [kids])
  have count : t.heap.count parent = left.length + (right.length + 1) := by
    grind [slots_length]
  rw [kids, length_append, length_cons] at least
  obtain ⟨front, back, window⟩ := valid.kids_window above
  have small : k < BPLUS_MAX_LEVEL := lower.trans rest.height
  have previous : ∀ start l, left = start ++ [l] → t.heap.listPrevEntry node = some l := by
    rintro start l rfl
    have list : y.nodes k = (front ++ start) ++ l :: node :: (right ++ back) := by simp [window, kids]
    exact rest.rings.prev small list
  have next : ∀ r rest', right = r :: rest' → t.heap.listNextEntry node = some r := by
    rintro r rest' rfl
    have list : y.nodes k = (front ++ left) ++ node :: r :: (rest' ++ back) := by simp [window, kids]
    exact rest.rings.next small list
  refine ⟨parent, above, known, ?_⟩
  rw [index]
  rcases eq_nil_or_concat left with rfl | ⟨start, l, rfl⟩
  · -- the first child has a right sibling only
    obtain ⟨r, rest', rfl⟩ := exists_cons_of_ne_nil (l := right) (by rintro rfl; simp at least)
    refine Or.inr ⟨[], r, rest', kids, rfl, ?_⟩
    simp [Heap.siblingSelect, next r rest' rfl]
  · rw [concat_eq_append] at *
    have size : (start ++ [l]).length = start.length + 1 := by simp
    rw [size] at count
    have notFirst : ¬((start ++ [l]).length : Int) - 1 = -1 := by omega
    have place : ((start ++ [l]).length : Int) - 1 = start.length := by omega
    cases right with
    | nil =>
      have last : ((start ++ [l]).length : Int) - 1 = t.heap.count parent - 2 := by
        rw [length_nil] at count
        omega
      refine Or.inl ⟨start, l, [], by simpa using kids, place, ?_⟩
      unfold Heap.siblingSelect
      grind
    | cons r rest' =>
      have notLast : ¬((start ++ [l]).length : Int) - 1 = t.heap.count parent - 2 := by
        rw [length_cons] at count
        omega
      unfold Heap.siblingSelect
      rw [if_neg notFirst, if_neg notLast, previous start l rfl, next r rest' rfl]
      by_cases bigger : t.heap.count l ≥ t.heap.count r
      · exact Or.inl ⟨start, l, r :: rest', by simpa using kids, place, by simp [bigger]⟩
      · exact Or.inr ⟨start ++ [l], r, rest', by simpa using kids, rfl, by simp [bigger]⟩

end Selecting

section Losing

variable {t : BplusTree} {y : Shape} {node : Addr} {remove : Nat}

section

variable (losing : Losing t y k node remove)
include losing

theorem Losing.loses : t.heap.Loses node remove := by
  have distinct := losing.rest.valid.kids_nodup losing.mem
  rw [← losing.kidRow] at distinct
  exact ⟨losing.inside, fun i insideI j insideJ same => slots_injective distinct insideI insideJ same, losing.parents⟩

theorem Losing.kid_mem (child : Addr)
    (slot : ∃ i < t.heap.count node - 1, removeAt (t.heap.subPtr node) (remove + 1) i = child) :
    child ∈ y.kids node := by
  grind [kidRow, mem_slots]

theorem Losing.not_leaf : ∀ leaf ∈ y.nodes 0, leaf ≠ node := by
  rintro leaf mem rfl
  exact losing.rest.valid.apart 0 (k + 1) (by omega) leaf mem losing.mem

theorem Losing.removed : let h' := t.heap.nonLeafSimpleRemove node remove
    RepBut (· = node) y.nodes { t with heap := h' } y ∧ LeavesKept (y.nodes 0) t { t with heap := h' } ∧
      h'.Holds (k + 1) node (y.kids node) (y.keys node) ∧ h'.count node = t.heap.count node - 1 ∧
      ∀ a ≠ node, h'.count a = t.heap.count a := by
  intro h'
  obtain ⟨touches, filled⟩ := Heap.nonLeafSimpleRemove_spec losing.loses
  have valid := losing.rest.valid
  have rest := losing.rest.touches touches (fun _ _ _ => id)
    (fun j a mem other child own inside => other (valid.parent_eq mem losing.mem own
      (losing.kid_mem child inside)))
    (fun inside => valid.root_notKid losing.mem (losing.kid_mem _ inside))
  have holds := filled.holds (k := k) ((congrFun touches.type node).trans losing.type)
  grind [kidRow, keyRow, LeavesKept.touches, not_leaf, Heap.Filled.count, Heap.Touches.count]

theorem Losing.kids_length : (y.kids node).length = t.heap.count node - 1 := by
  rw [← losing.kidRow, slots_length]

theorem Losing.simple (enough : 3 ≤ t.heap.count node) (half : node ≠ y.root → t.order / 2 ≤ t.heap.count node - 1) :
    Settles (y.nodes 0) y.leafKeys t { t with heap := t.heap.nonLeafSimpleRemove node remove } := by
  obtain ⟨rest, kept, holds, -, -⟩ := losing.removed
  have size := losing.kids_length
  have most := losing.sized.1
  refine ⟨⟨y, rest.finish losing.mem ⟨holds, ?_⟩, rfl, rfl⟩, kept⟩
  exact ⟨by omega, by simp only; omega, fun bound => by have := half bound; simp only; omega⟩

theorem Losing.collapse (top : node = y.root) (two : t.heap.count node = 2) : let child := t.heap.subPtr node 0
    Settles (y.nodes 0) y.leafKeys t
      { t with
        root := some child
        level := t.level - 1
        heap := { t.heap with
          parent := update t.heap.parent child none
          links := t.heap.links.del (.node node) } } := by
  intro child
  have valid := losing.rest.valid
  have inside := losing.inside
  obtain rfl : remove = 0 := by omega
  have level : k + 1 = y.level := by
    by_contra ne
    exact valid.apart (k + 1) y.level ne node losing.mem (top ▸ valid.root_mem)
  have only : y.kids y.root = [child] := by
    rw [← top, ← losing.kidRow, two]
    rfl
  have nodes : ∀ j ≠ y.level, (y.drop child).nodes j = y.nodes j := fun j ne =>
    update_of_ne ne _ _
  have linked : (y.drop child).nodes = replaceNode y.nodes (k + 1) node [] := by
    have alone : y.nodes (k + 1) = [] ++ node :: [] := by rw [level, valid.top, top]; rfl
    rw [replaceNode_eq (valid.nodup (k + 1)) alone, level]
    rfl
  have small : k + 1 < BPLUS_MAX_LEVEL := level ▸ losing.rest.height
  have rings := losing.rest.rings.del valid.apart small (valid.nodup (k + 1)) losing.mem
  rw [← linked] at rings
  have below : ∀ j, ∀ a ∈ (y.drop child).nodes j, j ≠ y.level ∧ a ∈ y.nodes j ∧ a ≠ node := by
    intro j a mem
    have ne : j ≠ y.level := by
      rintro rfl
      simp [Layout.drop] at mem
    rw [nodes j ne] at mem
    refine ⟨ne, mem, ?_⟩
    rintro rfl
    exact valid.apart j (k + 1) (level ▸ ne) a mem losing.mem
  refine ⟨⟨y.drop child, ⟨valid.drop (by omega) only, losing.rest.config, rfl, ?_, ?_, ?_, rings, ?_, ?_, ?_⟩, ?_, ?_⟩,
    ⟨fun _ _ => ⟨rfl, rfl⟩, rfl, rfl, rfl⟩⟩
  · show t.level - 1 = y.level - 1
    rw [losing.rest.level]
  · show y.level - 1 < BPLUS_MAX_LEVEL
    omega
  · intro j a mem _
    obtain ⟨-, present, other⟩ := below j a mem
    obtain ⟨holds, sized⟩ := losing.rest.lies j a present other
    refine ⟨holds.congr rfl rfl rfl rfl fun inner kid own => ⟨?_, rfl⟩, sized.imp fun _ => top ▸ other⟩
    obtain ⟨i, rfl⟩ : ∃ i, j = i + 1 := ⟨j - 1, by omega⟩
    grind [Layout.Valid.parent_eq, mem]
  · exact fun j a mem => losing.rest.fresh j a (below j a mem).2.1
  · exact update_self ..
  · exact losing.rest.fault
  · exact nodes 0 (by omega)
  · exact Layout.drop_leafKeys (by omega)

end

end Losing

end BlockchainPG.Mbt
