import BlockchainPG.Mbt.Delete
import BlockchainPG.Mbt.Search

/-! What the stores of the structural routines can reach. -/

namespace BlockchainPG.Mbt

open Lib Function

namespace Heap

@[simp] theorem check_true (h : Heap) : h.check true = h := by simp [check]

/-- The contents of the leaf slots beside their keys. -/
def payload (h : Heap) : (Addr → Nat → CString) × (Addr → Nat → Cell) × (Cell → ItemPointerData) :=
  (h.data, h.tids, h.cell)

/-- From one heap to the next only rows of some nodes and the parent fields of
some children changed. -/
structure Touches (rows kids : Addr → Prop) (h h' : Heap) : Prop where
  type : h'.type = h.type
  links : h'.links = h.links
  payload : h'.payload = h.payload
  next : h'.next = h.next
  fault : h'.fault = h.fault
  count : ∀ node, ¬rows node → h'.count node = h.count node
  key : ∀ node, ¬rows node → h'.key node = h.key node
  subPtr : ∀ node, ¬rows node → h'.subPtr node = h.subPtr node
  parent : ∀ child, ¬kids child → h'.parent child = h.parent child
  parentKeyIdx : ∀ child, ¬kids child → h'.parentKeyIdx child = h.parentKeyIdx child

variable {h h' h'' : Heap} {rows kids : Addr → Prop}

theorem Touches.refl (h : Heap) (rows kids : Addr → Prop) : Touches rows kids h h := by
  constructor <;> simp

theorem Touches.trans (first : Touches rows kids h h') (second : Touches rows kids h' h'') :
    Touches rows kids h h'' where
  type := second.type.trans first.type
  links := second.links.trans first.links
  payload := second.payload.trans first.payload
  next := second.next.trans first.next
  fault := second.fault.trans first.fault
  count node out := (second.count node out).trans (first.count node out)
  key node out := (second.key node out).trans (first.key node out)
  subPtr node out := (second.subPtr node out).trans (first.subPtr node out)
  parent child out := (second.parent child out).trans (first.parent child out)
  parentKeyIdx child out := (second.parentKeyIdx child out).trans (first.parentKeyIdx child out)

theorem Touches.weaken (touches : Touches rows kids h h')
    (rowsIn : ∀ node, rows node → more node) (kidsIn : ∀ child, kids child → others child) :
    Touches more others h h' :=
  { touches with
    count := fun node out => touches.count node fun inside => out (rowsIn node inside)
    key := fun node out => touches.key node fun inside => out (rowsIn node inside)
    subPtr := fun node out => touches.subPtr node fun inside => out (rowsIn node inside)
    parent := fun child out => touches.parent child fun inside => out (kidsIn child inside)
    parentKeyIdx := fun child out => touches.parentKeyIdx child fun inside => out (kidsIn child inside) }

theorem update_outside {set : Addr → Prop} (inside : set a) (outside : ¬set b) (value : β) (f : Addr → β) :
    update f a value b = f b := by
  refine update_of_ne ?_ value f
  rintro rfl
  exact outside inside

section

variable (touches : Touches rows kids h h') (row : rows node)
include touches row

theorem Touches.adopt (kid : kids child) (i : Nat) : Touches rows kids h (h'.adopt node i child) :=
  touches.trans ⟨rfl, rfl, rfl, rfl, rfl, fun _ _ => rfl, fun _ _ => rfl, fun _ out => update_outside row out _ _,
    fun _ out => update_outside kid out _ _, fun _ out => update_outside kid out _ _⟩

theorem Touches.place (kid : kids child) (i : Nat) : Touches rows kids h (h'.place node i child) :=
  touches.trans ⟨rfl, rfl, rfl, rfl, rfl, fun _ _ => rfl, fun _ _ => rfl, fun _ out => update_outside row out _ _,
    fun _ _ => rfl, fun _ out => update_outside kid out _ _⟩

theorem Touches.keyRow (keys : Nat → Int) : Touches rows kids h { h' with key := update h'.key node keys } :=
  touches.trans ⟨rfl, rfl, rfl, rfl, rfl, fun _ _ => rfl, fun _ out => update_outside row out _ _, fun _ _ => rfl,
    fun _ _ => rfl, fun _ _ => rfl⟩

theorem Touches.setKey (i : Nat) (key : Int) : Touches rows kids h (h'.setKey node i key) := touches.keyRow row _

theorem Touches.setCount (n : Nat) : Touches rows kids h (h'.setCount node n) :=
  touches.trans ⟨rfl, rfl, rfl, rfl, rfl, fun _ out => update_outside row out _ _, fun _ _ => rfl, fun _ _ => rfl,
    fun _ _ => rfl, fun _ _ => rfl⟩

end

theorem Touches.nodeDelete (touches : Touches rows kids h h') (node : Addr) :
    Touches rows kids { h with links := h.links.del (.node node) } (h'.nodeDelete node) :=
  { touches with links := congrArg (fun links => links.del (.node node)) touches.links }

/-- The slots of an inner node as functions of the slot number. -/
structure Filled (h : Heap) (node : Addr) (n : Nat) (kid : Nat → Addr) (key : Nat → Int) : Prop where
  count : h.count node = n
  kids : ∀ i < n, h.subPtr node i = kid i
  keys : ∀ i, i + 1 < n → h.key node i = key i
  parents : ∀ i < n, h.parent (kid i) = some node ∧ h.parentKeyIdx (kid i) = i - 1

/-- The first slots of an inner node hold children that know it. -/
def Adopted (h : Heap) (node : Addr) (n : Nat) (kid : Nat → Addr) : Prop :=
  ∀ i < n, h.subPtr node i = kid i ∧ h.parent (kid i) = some node ∧ h.parentKeyIdx (kid i) = i - 1

theorem Adopted.adopt {kid : Nat → Addr} (adopted : h.Adopted node n kid)
    (ne : ∀ i < n, kid i ≠ kid n) : (h.adopt node n (kid n)).Adopted node (n + 1) kid := by
  intro i inside
  by_cases last : i = n
  · subst last
    simp [Heap.adopt]
  · have before := adopted i (by omega)
    simp [Heap.adopt, last, ne i (by omega), before]

theorem Adopted.touches {kid : Nat → Addr} (adopted : h.Adopted node n kid) (touches : Touches rows kids h h')
    (row : ¬rows node) (free : ∀ i < n, ¬kids (kid i)) : h'.Adopted node n kid := by
  intro i inside
  rw [touches.subPtr node row, touches.parent _ (free i inside), touches.parentKeyIdx _ (free i inside)]
  exact adopted i inside

section

variable {kid : Nat → Addr} {key : Nat → Int} (filled : h.Filled node n kid key)
include kid key filled

theorem Filled.adopted : h.Adopted node n kid :=
  fun i inside => ⟨filled.kids i inside, filled.parents i inside⟩

theorem Filled.touches (touches : Touches rows kids h h') (row : ¬rows node) (free : ∀ i < n, ¬kids (kid i)) :
    h'.Filled node n kid key where
  count := (touches.count node row).trans filled.count
  kids i inside := (filled.adopted.touches touches row free i inside).1
  keys i inside := by
    rw [touches.key node row]
    exact filled.keys i inside
  parents i inside := (filled.adopted.touches touches row free i inside).2

theorem Filled.nodeDelete (other : Addr) : (h.nodeDelete other).Filled node n kid key :=
  ⟨filled.count, filled.kids, filled.keys, filled.parents⟩

end

end Heap

end BlockchainPG.Mbt
