import BlockchainPG.Lib.Lookup
import BlockchainPG.Mbt.Footprint
import BlockchainPG.Mbt.Rings

/-! When a heap represents a layout. -/

namespace BlockchainPG.Mbt

open Lib Function

abbrev Shape := Layout Addr Int

namespace Heap

variable {h h' : Heap} {rows kids : Addr → Prop} {children : List Addr} {keys : List Int}

/-- The rows of a node of level `k` hold these children and keys, and the
children know where they are. -/
def Holds (h : Heap) : Nat → Addr → List Addr → List Int → Prop
  | 0, node, _, keys => h.type node = BPLUS_TREE_LEAF ∧ slots (h.key node) (h.count node) = keys
  | _ + 1, node, children, keys =>
    h.type node = BPLUS_TREE_NON_LEAF ∧ slots (h.subPtr node) (h.count node) = children ∧
      slots (h.key node) (h.count node - 1) = keys ∧
      ∀ (i : Nat) child, children[i]? = some child → h.parent child = some node ∧ h.parentKeyIdx child = i - 1

theorem Holds.congr (holds : h.Holds k node children keys)
    (type : h'.type node = h.type node) (count : h'.count node = h.count node)
    (key : h'.key node = h.key node) (subPtr : h'.subPtr node = h.subPtr node) (family : 0 < k → ∀ child ∈ children,
      h'.parent child = h.parent child ∧ h'.parentKeyIdx child = h.parentKeyIdx child) :
    h'.Holds k node children keys := by
  cases k with
  | zero => simpa only [Holds, type, count, key] using holds
  | succ k =>
    obtain ⟨own, kidRow, keyRow, parents⟩ := holds
    refine ⟨type.trans own, by rw [subPtr, count, kidRow], by rw [key, count, keyRow], ?_⟩
    grind

theorem Holds.touches (holds : h.Holds k node children keys)
    (touches : Touches rows kids h h') (row : ¬rows node) (free : 0 < k → ∀ child ∈ children, ¬kids child) :
    h'.Holds k node children keys :=
  holds.congr (congrFun touches.type node) (touches.count node row) (touches.key node row)
    (touches.subPtr node row) fun inner child mem =>
      ⟨touches.parent child (free inner child mem), touches.parentKeyIdx child (free inner child mem)⟩

theorem Filled.holds {kid : Nat → Addr} {key : Nat → Int} (filled : h.Filled node n kid key)
    (type : h.type node = BPLUS_TREE_NON_LEAF) : h.Holds (k + 1) node (slots kid n) (slots key (n - 1)) := by
  refine ⟨type, ?_, ?_, ?_⟩
  · rw [filled.count]
    exact slots_congr filled.kids
  · grind [count, slots_congr, keys]
  · grind [slots_getElem?, parents]

theorem Holds.filled (holds : h.Holds (k + 1) node children keys) :
    h.Filled node (h.count node) (h.subPtr node) (h.key node) := by
  obtain ⟨-, kidRow, -, parents⟩ := holds
  constructor <;> grind [slots_getElem?]

theorem Holds.count (holds : h.Holds (k + 1) node children keys) : h.count node = children.length := by
  rw [← holds.2.1, slots_length]

theorem Holds.leafCount (holds : h.Holds 0 node children keys) : h.count node = keys.length := by
  rw [← holds.2, slots_length]

/-- A new node was allocated and linked to itself. -/
structure Allocates (h h' : Heap) (new : Addr) : Prop where
  address : new = h.next
  next : h'.next = h.next + 1
  links : h'.links = h.links.init (.node new)
  fault : h'.fault = h.fault
  newParent : h'.parent new = none
  type : ∀ node ≠ new, h'.type node = h.type node
  count : ∀ node ≠ new, h'.count node = h.count node
  key : ∀ node ≠ new, h'.key node = h.key node
  subPtr : ∀ node ≠ new, h'.subPtr node = h.subPtr node
  parent : ∀ node ≠ new, h'.parent node = h.parent node
  parentKeyIdx : ∀ node ≠ new, h'.parentKeyIdx node = h.parentKeyIdx node

theorem nonLeafNew_allocates (h : Heap) : Allocates h h.nonLeafNew.2 h.nonLeafNew.1 := by
  constructor
  all_goals simp +contextual [nonLeafNew, malloc, bplusNonLeafInit]

theorem leafNew_allocates (h : Heap) : Allocates h h.leafNew.2 h.leafNew.1 := by
  constructor
  all_goals simp +contextual [leafNew, malloc, bplusLeafInit]

theorem Holds.allocates (holds : h.Holds k node children keys)
    (allocates : Allocates h h' new) (other : node ≠ new) (others : 0 < k → new ∉ children) :
    h'.Holds k node children keys := by
  grind [congr, Allocates.type, Allocates.count, Allocates.key, Allocates.subPtr, Allocates.parent,
    Allocates.parentKeyIdx]

def withPayload (h h' : Heap) : Heap := { h with data := h'.data, tids := h'.tids, cell := h'.cell }

theorem Touches.withPayload (touches : Touches rows kids h h') : Touches rows kids (h.withPayload h') h' :=
  { touches with payload := rfl }

end Heap

/-- Leaves hold at least one key, inner nodes at least two children, none holds
more than its rows have slots for, and those bound to it are at least half full. -/
def Sized (order entries : Nat) (half : Prop) : Nat → List Addr → List Int → Prop
  | 0, _, keys => 0 < keys.length ∧ keys.length ≤ entries ∧ (half → (entries + 1) / 2 ≤ keys.length)
  | _ + 1, children, _ => 2 ≤ children.length ∧ children.length ≤ order ∧ (half → order / 2 ≤ children.length)

theorem Sized.imp {children : List Addr} {keys : List Int} (sized : Sized order entries half k children keys)
    (weaker : half' → half) : Sized order entries half' k children keys := by
  cases k with
  | zero => exact ⟨sized.1, sized.2.1, fun bound => sized.2.2 (weaker bound)⟩
  | succ k => exact ⟨sized.1, sized.2.1, fun bound => sized.2.2 (weaker bound)⟩

/-- A node lies in memory as the layout says. Only the root may be less than half full. -/
def Lies (t : BplusTree) (y : Shape) (k : Nat) (node : Addr) : Prop :=
  t.heap.Holds k node (y.kids node) (y.keys node) ∧
    Sized t.order t.entries (node ≠ y.root) k (y.kids node) (y.keys node)

theorem Lies.congr (lies : Lies t y k node) (root : y'.root = y.root)
    (content : y'.kids node = y.kids node ∧ y'.keys node = y.keys node) : Lies t y' k node := by
  rwa [Lies, content.1, content.2, root]

theorem Lies.of_holds (kids : 0 < k → y.kids node = children) (own : y.keys node = keys)
    (holds : t.heap.Holds k node children keys)
    (sized : Sized t.order t.entries True k children keys) : Lies t y k node := by
  rw [Lies, own]
  cases k with
  | zero => exact ⟨holds, sized.imp fun _ => trivial⟩
  | succ k =>
    grind [Sized.imp]

/-- The tree is laid out as described, except for what the nodes in `skip` hold
and for nodes that are linked but not yet or no longer part of the layout. -/
structure RepBut (skip : Addr → Prop) (linked : Nat → List Addr) (t : BplusTree) (y : Shape) : Prop where
  valid : y.Valid
  config : BPLUS_MIN_ORDER ≤ t.order ∧ 0 < t.entries
  root : t.root = some y.root
  level : t.level = y.level
  height : y.level < BPLUS_MAX_LEVEL
  lies : ∀ k, ∀ node ∈ y.nodes k, ¬skip node → Lies t y k node
  rings : Rings t.heap.links linked
  fresh : ∀ k, ∀ node ∈ y.nodes k, node < t.heap.next
  top : t.heap.parent y.root = none
  fault : t.heap.fault = false

/-- The tree is laid out as described. -/
abbrev Rep (t : BplusTree) (y : Shape) : Prop := RepBut (fun _ => False) y.nodes t y

/-- Nothing that a leaf holds changed. -/
structure LeavesKept (leaves : List Addr) (t t' : BplusTree) : Prop where
  rows : ∀ leaf ∈ leaves, t'.heap.count leaf = t.heap.count leaf ∧ t'.heap.key leaf = t.heap.key leaf
  payload : t'.heap.payload = t.heap.payload
  order : t'.order = t.order
  entries : t'.entries = t.entries

theorem LeavesKept.refl (leaves : List Addr) (t : BplusTree) : LeavesKept leaves t t :=
  ⟨fun _ _ => ⟨rfl, rfl⟩, rfl, rfl, rfl⟩

theorem LeavesKept.trans (first : LeavesKept leaves t t') (second : LeavesKept leaves t' t'') :
    LeavesKept leaves t t'' where
  rows leaf mem := ⟨(second.rows leaf mem).1.trans (first.rows leaf mem).1,
    (second.rows leaf mem).2.trans (first.rows leaf mem).2⟩
  payload := second.payload.trans first.payload
  order := second.order.trans first.order
  entries := second.entries.trans first.entries

/-- The structural work above the leaves ends with a tree that has these
leaves, as they were. -/
structure Settles (leaves : List Addr) (keys : List Int) (t t' : BplusTree) : Prop where
  rep : ∃ y, Rep t' y ∧ y.nodes 0 = leaves ∧ y.leafKeys = keys
  kept : LeavesKept leaves t t'

theorem Settles.after (kept : LeavesKept leaves t t')
    (settles : Settles leaves keys t' t'') : Settles leaves keys t t'' :=
  ⟨settles.rep, kept.trans settles.kept⟩

theorem LeavesKept.touches {leaves : List Addr} {t : BplusTree} {h' : Heap} {rows kids : Addr → Prop}
    (touches : Heap.Touches rows kids t.heap h') (outside : ∀ leaf ∈ leaves, ¬rows leaf) :
    LeavesKept leaves t { t with heap := h' } :=
  ⟨fun leaf mem => ⟨touches.count leaf (outside leaf mem), touches.key leaf (outside leaf mem)⟩,
    touches.payload, rfl, rfl⟩

theorem LeavesKept.allocates (allocates : Heap.Allocates t.heap h' new) (payload : h'.payload = t.heap.payload)
    (outside : new ∉ leaves) :
    LeavesKept leaves t { t with heap := h' } :=
  ⟨fun leaf mem => ⟨allocates.count leaf (ne_of_mem_of_not_mem mem outside),
    allocates.key leaf (ne_of_mem_of_not_mem mem outside)⟩, payload, rfl, rfl⟩

section Changes

variable {skip : Addr → Prop} {linked : Nat → List Addr} {t : BplusTree} {y : Shape} {h' : Heap}

theorem RepBut.order_pos (rep : RepBut skip linked t y) : 3 ≤ t.order := rep.config.1

theorem RepBut.outside (rep : RepBut skip linked t y) (k : Nat) : t.heap.next ∉ y.nodes k :=
  fun mem => Nat.lt_irrefl _ (rep.fresh k _ mem)

theorem RepBut.weaken (rep : RepBut skip linked t y) (more : Addr → Prop) (weaker : ∀ node, skip node → more node) :
    RepBut more linked t y :=
  { rep with lies := fun k node mem out => rep.lies k node mem fun inside => out (weaker node inside) }

theorem RepBut.relink (rep : RepBut skip linked t y)
    (rings : Rings links linked') : RepBut skip linked' { t with heap := { t.heap with links := links } } y :=
  { rep with
    lies := fun k node mem out =>
      ⟨(rep.lies k node mem out).1.congr rfl rfl rfl rfl fun _ _ _ => ⟨rfl, rfl⟩, (rep.lies k node mem out).2⟩
    rings := rings }

theorem RepBut.touches (rep : RepBut skip linked t y)
    (touches : Heap.Touches rows kids t.heap h') (row : ∀ k, ∀ node ∈ y.nodes k, rows node → skip node)
    (kid : ∀ k, ∀ node ∈ y.nodes (k + 1), ¬skip node → ∀ child ∈ y.kids node, ¬kids child)
    (top : ¬kids y.root) : RepBut skip linked { t with heap := h' } y :=
  { rep with
    lies := fun k node mem out => by
      refine ⟨(rep.lies k node mem out).1.touches touches (fun own => out (row k node mem own)) ?_,
        (rep.lies k node mem out).2⟩
      intro inner child present
      obtain ⟨k, rfl⟩ : ∃ below, k = below + 1 := ⟨k - 1, by omega⟩
      exact kid k node mem out child present
    rings := touches.links ▸ rep.rings
    fresh := touches.next ▸ rep.fresh
    top := (touches.parent _ top).trans rep.top
    fault := touches.fault.trans rep.fault }

theorem RepBut.setKeys (rep : RepBut skip linked t y) (mem : leaf ∈ y.nodes 0)
    (working : skip leaf) (within : WithinLeaf (y.lo leaf) keys (y.hi leaf)) :
    RepBut skip linked t (y.setKeys leaf keys) :=
  { rep with
    valid := rep.valid.setKeys mem within
    lies := fun k node present out =>
      (rep.lies k node present out).congr rfl
        ⟨rfl, update_of_ne (fun same : node = leaf => out (same ▸ working)) _ _⟩ }

theorem RepBut.withPayload (rep : RepBut skip linked t y) (other : Heap) :
    RepBut skip linked { t with heap := t.heap.withPayload other } y :=
  { rep with
    lies := fun k node mem out =>
      ⟨(rep.lies k node mem out).1.congr rfl rfl rfl rfl fun _ _ _ => ⟨rfl, rfl⟩,
        (rep.lies k node mem out).2⟩ }

theorem RepBut.allocates (rep : RepBut skip linked t y) (allocates : Heap.Allocates t.heap h' new)
    (unlinked : ∀ k, new ∉ linked k) : RepBut skip linked { t with heap := h' } y := by
  have fresh : ∀ k, new ∉ y.nodes k := allocates.address ▸ rep.outside
  exact
    { rep with
      lies := fun k node mem out => by
        refine ⟨(rep.lies k node mem out).1.allocates allocates (ne_of_mem_of_not_mem mem (fresh k)) ?_,
          (rep.lies k node mem out).2⟩
        intro inner present
        obtain ⟨k, rfl⟩ : ∃ below, k = below + 1 := ⟨k - 1, by omega⟩
        exact fresh k (rep.valid.kid_mem mem present)
      rings := by
        simp only [allocates.links]
        exact rep.rings.init unlinked
      fresh := fun k node mem => allocates.next ▸ Nat.lt_succ_of_lt (rep.fresh k node mem)
      top := (allocates.parent _ (ne_of_mem_of_not_mem rep.valid.root_mem (fresh _))).trans rep.top
      fault := allocates.fault.trans rep.fault }

theorem RepBut.finish (rep : RepBut (· = node) y.nodes t y) (mem : node ∈ y.nodes k)
    (lies : Lies t y k node) : Rep t y :=
  { rep with
    lies := fun j other present _ => by
      by_cases same : other = node
      · subst same
        obtain rfl : j = k := by
          by_contra ne
          exact rep.valid.apart j k ne other present mem
        exact lies
      · exact rep.lies j other present same }

/-- An edit of the layout, when the nodes that take part in it already lie as
the new layout says. Their parent is left to do. -/
theorem RepBut.edit (rep : RepBut (fun node => node ∈ old ∨ node = parent) y'.nodes t y)
    (edit : Layout.Edit y y' k parent left old new right lower middle cuts upper)
    (lies : ∀ node ∈ new, Lies t y' k node) (fresh : ∀ node ∈ new, node < t.heap.next) :
    RepBut (· = parent) y'.nodes t y' where
  valid := edit.valid rep.valid
  config := rep.config
  root := by rw [edit.root, rep.root]
  level := by rw [edit.level, rep.level]
  height := by rw [edit.level]; exact rep.height
  lies j node mem out := by
    rcases edit.mem_after rep.valid mem with ⟨rfl, inside⟩ | ⟨present, notOld, notNew⟩
    · exact lies node inside
    · exact (rep.lies j node present (not_or.mpr ⟨notOld, out⟩)).congr edit.root
        (edit.content_else node notNew out)
  rings := rep.rings
  fresh j node mem := by
    rcases edit.mem_after rep.valid mem with ⟨rfl, inside⟩ | ⟨present, -, -⟩
    · exact fresh node inside
    · exact rep.fresh j node present
  top := by rw [edit.root]; exact rep.top
  fault := rep.fault

theorem RepBut.raise (rep : RepBut skip linked t y) (working : skip y.root) (fresh : ∀ k, new ∉ y.nodes k)
    (orphan : t.heap.parent new = none) (known : new < t.heap.next) (height : y.level + 1 < BPLUS_MAX_LEVEL)
    (rings : Rings links linked') : RepBut (fun node => skip node ∨ node = new) linked'
      { t with root := some new, level := t.level + 1, heap := { t.heap with links := links } }
      (y.raise new) where
  valid := rep.valid.raise fresh
  config := rep.config
  root := rfl
  level := by rw [rep.level]; rfl
  height := height
  lies k node mem out := by
    obtain ⟨notSkip, notNew⟩ := not_or.mp out
    have present : node ∈ y.nodes k := by
      by_cases above : k = y.level + 1
      · subst above
        simp [Layout.raise, notNew] at mem
      · simpa [Layout.raise, above] using mem
    have kids : (y.raise new).kids node = y.kids node := update_of_ne notNew _ _
    have keys : (y.raise new).keys node = y.keys node := update_of_ne notNew _ _
    obtain ⟨holds, sized⟩ := rep.lies k node present notSkip
    grind [Lies, Heap.Holds.congr, Sized.imp]
  rings := rings
  fresh k node mem := by
    by_cases above : k = y.level + 1
    · subst above
      obtain rfl : node = new := by simpa [Layout.raise] using mem
      exact known
    · exact rep.fresh k node (by simpa [Layout.raise, above] using mem)
  top := orphan
  fault := rep.fault

end Changes

section Descent

variable {t : BplusTree} {y : Shape}

theorem PlaceOf.separates (place : PlaceOf keys target p) (sorted : keys.Pairwise (· < ·)) :
    let i := if target ∈ keys then p + 1 else p
    (∀ key ∈ keys.take i, key ≤ target) ∧ ∀ key ∈ keys.drop i, target < key := by
  by_cases found : target ∈ keys
  · have here := (place.mem_iff sorted).mp found
    obtain ⟨inside, -⟩ := List.getElem?_eq_some_iff.mp here
    simp only [found, ↓reduceIte]
    constructor
    · intro key mem
      rw [List.take_add_one, here] at mem
      rcases List.mem_append.mp mem with mem | mem
      · exact (place.below key mem).le
      · exact (List.mem_singleton.mp mem).le
    · intro key mem
      have rest := sorted.sublist (List.drop_sublist p keys)
      grind [List.drop_eq_getElem_cons, List.pairwise_cons]
  · simp only [found, ↓reduceIte]
    exact ⟨fun key mem => (place.below key mem).le, place.above_lt found⟩

theorem Heap.Holds.childFor {h : Heap} {key : Int} (holds : h.Holds (k + 1) node (y.kids node) (y.keys node))
    (inner : y.Inner node) (covers : y.Covers node key) :
    h.childFor node key ∈ y.kids node ∧ y.Covers (h.childFor node key) key := by
  have size := inner.length
  have count := holds.count
  obtain ⟨-, kidRow, keyRow, -⟩ := holds
  have sorted := inner.1.1
  have length := congrArg List.length keyRow
  rw [slots_length] at length
  have sortedRow : (slots (h.key node) (h.count node - 1)).Pairwise (· < ·) := keyRow ▸ sorted
  obtain ⟨p, place, result⟩ := keyBinarySearch_spec sortedRow key
  rw [keyRow] at place result
  rw [show ((h.count node - 1 : Nat) : Int) = (h.count node : Int) - 1 by omega] at result
  have bound := place.inside
  let i := if key ∈ y.keys node then p + 1 else p
  have small : i < (y.kids node).length := by
    by_cases found : key ∈ y.keys node
    · have here := (List.getElem?_eq_some_iff.mp ((place.mem_iff sorted).mp found)).1
      simp only [i, found, ↓reduceIte]
      omega
    · simp only [i, found, ↓reduceIte]
      omega
  have child : h.childFor node key = h.subPtr node i := by
    grind [childFor]
  have slot : (y.kids node)[i]? = some (h.childFor node key) := by
    rw [← kidRow, slots_getElem?, if_pos (by omega), child]
  grind [Layout.Inner.child_covers, PlaceOf.separates]

theorem RepBut.descend_from (rep : Rep t y) (mem : node ∈ y.nodes k) (covers : y.Covers node key)
    (enough : k < fuel) : ∃ leaf ∈ y.nodes 0, y.Covers leaf key ∧ t.heap.descend key fuel node = some leaf := by
  induction k generalizing node fuel with
  | zero =>
    obtain ⟨fuel, rfl⟩ : ∃ rest, fuel = rest + 1 := ⟨fuel - 1, by omega⟩
    have type := (rep.lies 0 node mem id).1.1
    exact ⟨node, mem, covers, by simp [Heap.descend, Heap.isLeaf, type]⟩
  | succ k ih =>
    obtain ⟨fuel, rfl⟩ : ∃ rest, fuel = rest + 1 := ⟨fuel - 1, by omega⟩
    have holds := (rep.lies (k + 1) node mem id).1
    obtain ⟨kid, inside⟩ := holds.childFor (rep.valid.inner mem) covers
    obtain ⟨leaf, present, found, result⟩ := ih (rep.valid.kid_mem mem kid) inside (by omega : k < fuel)
    refine ⟨leaf, present, found, ?_⟩
    rw [← result]
    simp [Heap.descend, Heap.isLeaf, holds.1, BPLUS_TREE_NON_LEAF, BPLUS_TREE_LEAF]

theorem RepBut.descend (rep : Rep t y) (key : Int) :
    ∃ leaf ∈ y.nodes 0, y.Covers leaf key ∧ t.heap.descend key (t.level + 1) y.root = some leaf :=
  rep.descend_from rep.valid.root_mem (rep.valid.root_covers key) (by rw [rep.level]; omega)

end Descent

end BlockchainPG.Mbt
