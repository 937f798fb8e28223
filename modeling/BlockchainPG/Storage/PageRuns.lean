import BlockchainPG.Lib.Runs
import BlockchainPG.Storage.PageHeap
import BlockchainPG.Storage.PageIndex

/-! Whole lives of heap pages and index pages. -/

namespace BlockchainPG.Storage

open Lib Function List

/-- The boundaries of a page are in order, and the items occupy disjoint ranges of bytes
between `pd_upper` and `pd_special`. -/
structure Slotted (page : Page) : Prop where
  lower_le : page.pdLower ≤ page.pdUpper
  upper_le : page.pdUpper ≤ page.pdSpecial
  inside : ∀ itemId ∈ page.lines, itemId.len ≠ 0 →
    page.pdUpper ≤ itemId.off ∧ itemId.off + itemId.len ≤ page.pdSpecial
  disjoint : page.lines.Pairwise fun first second => first.len ≠ 0 → second.len ≠ 0 →
    first.off + first.len ≤ second.off ∨ second.off + second.len ≤ first.off

theorem Layout.slotted (layout : Layout stored page) (isStored : ∀ itemId, itemId.len ≠ 0 → stored itemId) :
    Slotted page := by
  refine ⟨layout.lower_le, layout.upper_le, fun itemId mem storage => ?_, layout.apart.imp ?_⟩
  · obtain ⟨low, high, -⟩ := layout.inside itemId mem (isStored itemId storage)
    have := (maxAlign_spec itemId.len).1
    omega
  · grind [maxAlign_spec, Apart]

/-- What happens to a heap page. -/
inductive HeapEvent where
  | addItem (item : List UInt8) (offsetNumber : Nat) (overwrite : Bool)
  | changeLine (offnum : Nat) (change : LineChange)
  | repairFragmentation

/-- A heap page and what its line pointers should stand for; no list if an item was
put where another one was. -/
structure HeapState where
  page : Page
  items : Option (List (Option (List UInt8)))

def HeapState.init (specialSize : Nat) : HeapState := ⟨pageInit specialSize, some []⟩

def heapStep (qsort : Qsort) (s : HeapState) : HeapEvent → HeapState
  | .addItem item offsetNumber overwrite =>
    match pageAddItem s.page item offsetNumber overwrite true with
    | (page, .error _) => ⟨page, s.items⟩
    | (page, .ok n) =>
      ⟨page, if n = 0 then s.items else s.items.bind fun items => placeHeapItem items n item⟩
  | .changeLine offnum change =>
    ⟨{ s.page with linp := update s.page.linp (offnum - 1) change.itemId },
      s.items.map fun items => items.set (offnum - 1) none⟩
  | .repairFragmentation => ⟨(pageRepairFragmentation qsort s.page).1, s.items⟩

/-- The heap leaves the choice of a line pointer to `PageAddItem` or wants a free one,
turns line pointers of the page unused, dead or redirected, and adds items whose aligned size is an `int`. -/
def HeapAllowed (s : HeapState) : HeapEvent → Prop
  | .addItem item offsetNumber overwrite => item.length + 7 < 2 ^ 31 ∧ (offsetNumber = 0 ∨ overwrite = true)
  | .changeLine offnum _ => 0 < offnum ∧ offnum ≤ s.page.maxOffsetNumber
  | .repairFragmentation => True

instance : ∀ s event, Decidable (HeapAllowed s event)
  | _, .addItem .. => inferInstanceAs (Decidable (_ ∧ _))
  | _, .changeLine .. => inferInstanceAs (Decidable (_ ∧ _))
  | _, .repairFragmentation => isTrue trivial

/-- The page is a heap page with the items it should have. -/
def HeapState.Faithful (s : HeapState) : Prop :=
  HeapPage s.page ∧ s.items = some s.page.heapItems

theorem HeapState.init_faithful (aligned : specialSize % 8 = 0) (room : specialSize + sizeOfPageHeaderData < pageSize) :
    (HeapState.init specialSize).Faithful :=
  ⟨pageInit_heapPage aligned room, rfl⟩

theorem HeapState.Faithful.step (qsort : Qsort) (s : HeapState) (event : HeapEvent) (faithful : s.Faithful)
    (allowed : HeapAllowed s event) : (heapStep qsort s event).Faithful := by
  obtain ⟨heap, recorded⟩ := faithful
  cases event with
  | addItem item offsetNumber overwrite =>
    obtain ⟨page', n, same, heap', outcome⟩ := heap.addItem allowed.1 allowed.2
    rw [heapStep, same]
    refine ⟨heap', ?_⟩
    rcases outcome with ⟨rfl, items⟩ | ⟨placed, items⟩
    · simp only [↓reduceIte, recorded, items]
    · simp only [if_neg placed, recorded, Option.bind_some, items]
  | changeLine offnum change =>
    have inside : offnum - 1 < s.page.maxOffsetNumber := by
      have := allowed.1
      have := allowed.2
      omega
    obtain ⟨heap', items⟩ := heap.changeLine inside change
    exact ⟨heap', by rw [heapStep, recorded, Option.map_some, items]⟩
  | repairFragmentation =>
    obtain ⟨page', same, heap', items⟩ := heap.repairFragmentation qsort
    rw [heapStep, same]
    exact ⟨heap', by rw [recorded, items]⟩

/-- What happens to an index page. -/
inductive IndexEvent where
  | addItem (item : List UInt8) (offsetNumber : Nat)
  | tupleDelete (offnum : Nat)
  | multiDelete (itemnos : List Nat)

/-- An index page and the items it should have. -/
structure IndexState where
  page : Page
  items : List (List UInt8)

def IndexState.init (specialSize : Nat) : IndexState := ⟨pageInit specialSize, []⟩

/-- A step of an index page. A call of `PageIndexMultiDelete` that reports an error has
deleted nothing, or with up to two numbers what came before the error. -/
def indexStep (qsort : Qsort) (s : IndexState) : IndexEvent → IndexState
  | .addItem item offsetNumber =>
    match pageAddItem s.page item offsetNumber false false with
    | (page, .error _) => ⟨page, s.items⟩
    | (page, .ok n) =>
      ⟨page, if n = 0 then s.items else s.items.take (n - 1) ++ item :: s.items.drop (n - 1)⟩
  | .tupleDelete offnum => ⟨(pageIndexTupleDelete s.page offnum).1, (eraseItems s.items [offnum]).1⟩
  | .multiDelete itemnos =>
    match pageIndexMultiDelete qsort s.page itemnos with
    | (page, none) => ⟨page, (eraseItems s.items itemnos.reverse).1⟩
    | (page, some _) =>
      ⟨page, if itemnos.length ≤ 2 then (eraseItems s.items itemnos.reverse).1 else s.items⟩

/-- Items of an index have an aligned size that is an `int`, and go to any position up
to the end. -/
def IndexAllowed (s : IndexState) : IndexEvent → Prop
  | .addItem item offsetNumber => item.length + 7 < 2 ^ 31 ∧ item.length % 8 = 0 ∧
      0 < offsetNumber ∧ offsetNumber ≤ s.page.maxOffsetNumber + 1
  | .tupleDelete _ => True
  | .multiDelete _ => True

instance : ∀ s event, Decidable (IndexAllowed s event)
  | _, .addItem .. => inferInstanceAs (Decidable (_ ∧ _))
  | _, .tupleDelete _ => isTrue trivial
  | _, .multiDelete _ => isTrue trivial

/-- The page is an index page with the items it should have. -/
def IndexState.Faithful (s : IndexState) : Prop :=
  IndexPage s.page ∧ s.items = s.page.indexItems

theorem IndexState.Faithful.step (qsort : Qsort) (s : IndexState) (event : IndexEvent) (faithful : s.Faithful)
    (allowed : IndexAllowed s event) : (indexStep qsort s event).Faithful := by
  obtain ⟨index, recorded⟩ := faithful
  cases event with
  | addItem item offsetNumber =>
    obtain ⟨small, aligned, pos, limit⟩ := allowed
    obtain ⟨page', n, same, index', outcome⟩ := index.addItem small aligned pos limit
    rw [indexStep, same]
    refine ⟨index', ?_⟩
    grind
  | tupleDelete offnum =>
    obtain ⟨page', error, same, index', items, -⟩ := index.deleteAll [offnum]
    rw [deleteAll_one] at same
    rw [indexStep, same]
    exact ⟨index', by rw [recorded, items]⟩
  | multiDelete itemnos =>
    obtain ⟨page', error, same, index', deleted, failed, -⟩ := index.multiDelete qsort itemnos
    rw [indexStep, same, recorded]
    cases error with
    | none => exact ⟨index', by rw [deleted rfl]⟩
    | some error => exact ⟨index', by rw [failed (Option.some_ne_none _)]⟩

theorem IndexPage.multiDelete_ascending (index : IndexPage page) (qsort : Qsort)
    (ascending : itemnos.Pairwise (· < ·)) :
    ((pageIndexMultiDelete qsort page itemnos).2 = none ↔ (Storage.deleteAll page itemnos.reverse).2 = none) ∧
      ((pageIndexMultiDelete qsort page itemnos).2 = none →
        (pageIndexMultiDelete qsort page itemnos).1.indexItems =
        (Storage.deleteAll page itemnos.reverse).1.indexItems) := by
  obtain ⟨page', error, same, -, deleted, -, complete⟩ := index.multiDelete qsort itemnos
  obtain ⟨page'', error', same', -, items, done⟩ := index.deleteAll itemnos.reverse
  grind

/-- Pages keep their layout and the items they should have. -/
theorem pages_stay_slotted (qsort : Qsort) (aligned : specialSize % 8 = 0)
    (room : specialSize + sizeOfPageHeaderData < pageSize) :
    (∀ events, Meets (heapStep qsort) HeapAllowed (.init specialSize) events →
      Slotted (run (heapStep qsort) (.init specialSize) events).page ∧
        (run (heapStep qsort) (.init specialSize) events).items =
          some (run (heapStep qsort) (.init specialSize) events).page.heapItems) ∧
    (∀ events, Meets (indexStep qsort) IndexAllowed (.init specialSize) events →
      Slotted (run (indexStep qsort) (.init specialSize) events).page ∧
        (run (indexStep qsort) (.init specialSize) events).items =
          (run (indexStep qsort) (.init specialSize) events).page.indexItems ∧
        ∀ itemnos : List Nat, itemnos.Pairwise (· < ·) →
          let page := (run (indexStep qsort) (.init specialSize) events).page
          ((pageIndexMultiDelete qsort page itemnos).2 = none ↔ (deleteAll page itemnos.reverse).2 = none) ∧
            ((pageIndexMultiDelete qsort page itemnos).2 = none →
              (pageIndexMultiDelete qsort page itemnos).1.indexItems =
                (deleteAll page itemnos.reverse).1.indexItems)) := by
  refine ⟨fun events allowed => ?_, fun events allowed => ?_⟩
  · obtain ⟨heap, items⟩ := allowed.keeps (HeapState.init_faithful aligned room) (HeapState.Faithful.step qsort)
    exact ⟨heap.layout.slotted fun _ storage => storage, items⟩
  · have start : (IndexState.init specialSize).Faithful := ⟨pageInit_indexPage aligned room, rfl⟩
    obtain ⟨index, items⟩ := allowed.keeps start (IndexState.Faithful.step qsort)
    exact ⟨index.layout.slotted fun _ _ => trivial, items, fun itemnos ascending =>
      index.multiDelete_ascending qsort ascending⟩

def fragmentedHeap : List HeapEvent :=
  [.addItem [1, 2, 3] 0 false, .addItem [4, 5] 0 false, .changeLine 1 .setUnused, .repairFragmentation,
    .addItem [6] 0 false]

def shrunkIndex : List IndexEvent :=
  [.addItem (.replicate 8 1) 1, .addItem (.replicate 16 2) 1, .addItem (.replicate 8 3) 2, .addItem [] 4,
    .tupleDelete 2, .multiDelete [1, 2, 3]]

theorem pages_stay_slotted_small : (Slotted (run (heapStep insertionQsort) (.init 16) fragmentedHeap).page ∧
      (run (heapStep insertionQsort) (.init 16) fragmentedHeap).items =
        some (run (heapStep insertionQsort) (.init 16) fragmentedHeap).page.heapItems) ∧
    Slotted (run (indexStep insertionQsort) (.init 16) shrunkIndex).page ∧
      (run (indexStep insertionQsort) (.init 16) shrunkIndex).items =
        (run (indexStep insertionQsort) (.init 16) shrunkIndex).page.indexItems := by
  obtain ⟨heap, index⟩ := @pages_stay_slotted 16 insertionQsort (by decide) (by decide)
  have indexed := index shrunkIndex (by decide +kernel)
  exact ⟨heap fragmentedHeap (by decide +kernel), indexed.1, indexed.2.1⟩

end BlockchainPG.Storage
