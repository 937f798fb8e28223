import BlockchainPG.Lib.MaxTree
import BlockchainPG.Lib.Runs
import BlockchainPG.Storage.BufPage

/-! One page of the free space map, `fsmpage.c`: a tree of maxima over slots. -/

namespace BlockchainPG.Storage.Fsm

open Lib Function

def nodesPerPage : Nat := pageSize - maxAlign sizeOfPageHeaderData - 4

def nonLeafNodesPerPage : Nat := pageSize / 2 - 1

def leafNodesPerPage : Nat := nodesPerPage - nonLeafNodesPerPage

theorem nodesPerPage_eq : nodesPerPage = 8164 := rfl

theorem nonLeafNodesPerPage_eq : nonLeafNodesPerPage = 4095 := rfl

theorem leafNodesPerPage_eq : leafNodesPerPage = 4069 := rfl

/-- `FSMPageData` -/
structure FSMPage where
  fpNextSlot : Int
  fpNodes : Nat → Nat

def zeroedPage : FSMPage := ⟨0, fun _ => 0⟩

def leftchild (x : Nat) : Nat := 2 * x + 1

def parentof (x : Nat) : Nat := (x - 1) / 2

def rightneighbor (x : Nat) : Nat := if (x + 1 + 1) &&& (x + 1) = 0 then parentof (x + 1) else x + 1

/-- A round of the loop of `fsm_rebuild_page`; it counts down to node 0. -/
def rebuildNode (next : Nat) (s : Bool × (Nat → Nat)) : Bool × (Nat → Nat) :=
  let nodeno := next - 1
  let lchild := leftchild nodeno
  let rchild := lchild + 1
  let newvalue := if lchild < nodesPerPage then s.2 lchild else 0
  let newvalue := if rchild < nodesPerPage then max newvalue (s.2 rchild) else newvalue
  if s.2 nodeno ≠ newvalue then (true, update s.2 nodeno newvalue) else s

def fsmRebuildPage (page : FSMPage) : Bool × FSMPage :=
  let s := forDown nonLeafNodesPerPage 0 rebuildNode (false, page.fpNodes)
  (s.1, { page with fpNodes := s.2 })

/-- The loop of `fsm_set_avail` upwards. The node number goes down, so it bounds the rounds. -/
def propagateUp : Nat → Nat → (Nat → Nat) → Nat → Nat
  | 0, _, nodes => nodes
  | fuel + 1, nodeno, nodes =>
    let nodeno := parentof nodeno
    let lchild := leftchild nodeno
    let rchild := lchild + 1
    let newvalue := if rchild < nodesPerPage then max (nodes lchild) (nodes rchild) else nodes lchild
    if nodes nodeno = newvalue then nodes
    else
      let nodes := update nodes nodeno newvalue
      if nodeno > 0 then propagateUp fuel nodeno nodes else nodes

def fsmSetAvail (page : FSMPage) (slot value : Nat) : Bool × FSMPage :=
  let nodeno := nonLeafNodesPerPage + slot
  if page.fpNodes nodeno = value ∧ value ≤ page.fpNodes 0 then (false, page)
  else
    let nodes := propagateUp nodeno nodeno (update page.fpNodes nodeno value)
    let page := { page with fpNodes := nodes }
    if value > page.fpNodes 0 then (true, (fsmRebuildPage page).2) else (true, page)

def fsmGetAvail (page : FSMPage) (slot : Nat) : Nat := page.fpNodes (nonLeafNodesPerPage + slot)

def fsmGetMaxAvail (page : FSMPage) : Nat := page.fpNodes 0

/-- A round of the loop of `fsm_truncate_avail`. -/
def clearNode (nodeno : Nat) (s : Bool × (Nat → Nat)) : Bool × (Nat → Nat) :=
  (s.1 || s.2 nodeno != 0, update s.2 nodeno 0)

def fsmTruncateAvail (page : FSMPage) (nslots : Nat) : Bool × FSMPage :=
  let s := forUp (nonLeafNodesPerPage + nslots) nodesPerPage clearNode (false, page.fpNodes)
  let page := { page with fpNodes := s.2 }
  (s.1, if s.1 then (fsmRebuildPage page).2 else page)

/-- The first loop of `fsm_search_avail`: to the right, then up. -/
def searchUp (nodes : Nat → Nat) (minvalue : Nat) : Nat → Nat → Nat
  | 0, nodeno => nodeno
  | fuel + 1, nodeno =>
    if nodeno > 0 then
      if nodes nodeno ≥ minvalue then nodeno else searchUp nodes minvalue fuel (parentof (rightneighbor nodeno))
    else nodeno

/-- The second loop: down to a slot, unless a node promised too much. The node number goes up. -/
def searchDown (nodes : Nat → Nat) (minvalue : Nat) : Nat → Nat → Option Nat
  | 0, _ => none
  | fuel + 1, nodeno =>
    if nodeno < nonLeafNodesPerPage then
      let childnodeno := leftchild nodeno
      if childnodeno < nodesPerPage ∧ nodes childnodeno ≥ minvalue then searchDown nodes minvalue fuel childnodeno
      else if childnodeno + 1 < nodesPerPage ∧ nodes (childnodeno + 1) ≥ minvalue then
        searchDown nodes minvalue fuel (childnodeno + 1)
      else none
    else some nodeno

/-- Where a search starts: `fp_next_slot` is only a hint. -/
def searchTarget (page : FSMPage) : Nat :=
  (if page.fpNextSlot < 0 ∨ page.fpNextSlot ≥ leafNodesPerPage then 0 else page.fpNextSlot.toNat) + nonLeafNodesPerPage

/-- `fsm_search_avail`, restarted at most so many times. -/
def fsmSearchAvail (minvalue : Nat) (advancenext : Bool) : Nat → FSMPage → Option (Int × FSMPage)
  | 0, _ => none
  | restarts + 1, page =>
    if page.fpNodes 0 < minvalue then some (-1, page)
    else
      let nodeno := searchUp page.fpNodes minvalue (searchTarget page) (searchTarget page)
      match searchDown page.fpNodes minvalue (nonLeafNodesPerPage + 1) nodeno with
      | none => fsmSearchAvail minvalue advancenext restarts (fsmRebuildPage page).2
      | some nodeno =>
        let slot : Int := nodeno - nonLeafNodesPerPage
        some (slot, { page with fpNextSlot := slot + if advancenext then 1 else 0 })

/-- Every inner node is the maximum of its children. -/
def Consistent (page : FSMPage) : Prop := MaxTree.Consistent nodesPerPage nonLeafNodesPerPage page.fpNodes

def SameSlots (page page' : FSMPage) : Prop := ∀ slot < leafNodesPerPage, fsmGetAvail page' slot = fsmGetAvail page slot

theorem consistent_zeroed : Consistent zeroedPage := by
  intro x _
  simp [MaxTree.childMax, zeroedPage]

theorem childMax_eq (nodes : Nat → Nat) (x : Nat) : MaxTree.childMax nodesPerPage nodes x =
    let newvalue := if leftchild x < nodesPerPage then nodes (leftchild x) else 0
    if leftchild x + 1 < nodesPerPage then max newvalue (nodes (leftchild x + 1)) else newvalue := by
  grind [leftchild, MaxTree.childMax]

theorem rebuildNode_nodes (next : Nat) (s : Bool × (Nat → Nat)) :
    (rebuildNode next s).2 = update s.2 (next - 1) (MaxTree.childMax nodesPerPage s.2 (next - 1)) := by
  grind [rebuildNode, childMax_eq]

theorem rebuild_nodes (page : FSMPage) :
    (fsmRebuildPage page).2.fpNodes = MaxTree.rebuild nodesPerPage nonLeafNodesPerPage page.fpNodes := by
  have loop : ∀ (nexts : List Nat) (s : Bool × (Nat → Nat)), (nexts.foldr rebuildNode s).2 =
      nexts.foldr (fun next nodes => update nodes (next - 1) (MaxTree.childMax nodesPerPage nodes (next - 1)))
        s.2 := by
    intro nexts s
    induction nexts with
    | nil => rfl
    | cons next nexts ih => rw [List.foldr_cons, rebuildNode_nodes, ih, List.foldr_cons]
  simp only [fsmRebuildPage, MaxTree.rebuild, forDown, loop]

theorem fsmRebuildPage_spec (page : FSMPage) :
    Consistent (fsmRebuildPage page).2 ∧ SameSlots page (fsmRebuildPage page).2 := by
  obtain ⟨consistent, leaves⟩ := MaxTree.rebuild_spec nodesPerPage nonLeafNodesPerPage page.fpNodes
  constructor
  · rw [Consistent, rebuild_nodes]
    exact consistent
  · intro slot _
    rw [fsmGetAvail, rebuild_nodes]
    exact leaves _ (by omega)

theorem propagateUp_eq (below : 0 < nodeno) (inside : nodeno < nodesPerPage) (nodes : Nat → Nat) (fuel : Nat) :
    propagateUp fuel nodeno nodes = MaxTree.bubble nodesPerPage fuel nodeno nodes := by
  induction fuel generalizing nodeno nodes with
  | zero => rfl
  | succ fuel ih =>
    grind [leftchild, parentof, childMax_eq, propagateUp, MaxTree.bubble]

theorem fsmSetAvail_spec (consistent : Consistent page) (inside : slot < leafNodesPerPage) (value : Nat) :
    Consistent (fsmSetAvail page slot value).2 ∧ fsmGetAvail (fsmSetAvail page slot value).2 slot = value ∧
      ∀ other < leafNodesPerPage, other ≠ slot →
        fsmGetAvail (fsmSetAvail page slot value).2 other = fsmGetAvail page other := by
  rw [leafNodesPerPage_eq] at inside
  have size := nodesPerPage_eq
  have inner := nonLeafNodesPerPage_eq
  by_cases kept : page.fpNodes (nonLeafNodesPerPage + slot) = value ∧ value ≤ page.fpNodes 0
  · simp only [fsmSetAvail, if_pos kept]
    exact ⟨consistent, kept.1, fun _ _ _ => trivial⟩
  · -- the changed slot leaves only its parent wrong, and the loop upwards mends that
    have but : MaxTree.ConsistentBut ((nonLeafNodesPerPage + slot - 1) / 2) nodesPerPage nonLeafNodesPerPage
        (update page.fpNodes (nonLeafNodesPerPage + slot) value) := by
      intro x low other
      rw [MaxTree.childMax_update (by omega) (by omega), update_of_ne (by omega)]
      exact consistent x low
    obtain ⟨mended, leaves⟩ := MaxTree.bubble_spec but (by omega) (by omega) (le_refl (nonLeafNodesPerPage + slot))
    rw [← propagateUp_eq (by omega) (by omega)] at mended leaves
    simp only [fsmSetAvail, if_neg kept]
    generalize propagateUp (nonLeafNodesPerPage + slot) (nonLeafNodesPerPage + slot)
      (update page.fpNodes (nonLeafNodesPerPage + slot) value) = nodes at mended leaves
    have own : nodes (nonLeafNodesPerPage + slot) = value := by
      rw [leaves _ (by omega), update_self]
    have top : ¬ value > nodes 0 := by
      have := mended.le_root (by omega) (by omega : nonLeafNodesPerPage + slot < nodesPerPage)
      omega
    rw [if_neg top]
    refine ⟨mended, own, fun other _ ne => ?_⟩
    grind [fsmGetAvail]

theorem clearNodes (most : start ≤ nodesPerPage) (nodes : Nat → Nat) :
    let s := forUp start nodesPerPage clearNode (false, nodes)
    (∀ x, s.2 x = if start ≤ x ∧ x < nodesPerPage then 0 else nodes x) ∧
      (s.1 = false → ∀ x, start ≤ x → x < nodesPerPage → nodes x = 0) := by
  refine forUp_invariant (motive := fun i (s : Bool × (Nat → Nat)) =>
    (∀ x, s.2 x = if start ≤ x ∧ x < i then 0 else nodes x) ∧
      (s.1 = false → ∀ x, start ≤ x → x < i → nodes x = 0)) most ⟨fun x => ?_, fun _ x low high => ?_⟩ ?_
  · rw [if_neg (by omega)]
  · omega
  · intro i s low high ⟨values, unchanged⟩
    constructor
    · intro x
      by_cases here : x = i
      · simp [clearNode, here, low]
      · have kept : (clearNode i s).2 x = s.2 x := update_of_ne here _ _
        grind
    · grind [clearNode]

theorem fsmTruncateAvail_spec (consistent : Consistent page) (inside : nslots ≤ leafNodesPerPage) :
    Consistent (fsmTruncateAvail page nslots).2 ∧ ∀ slot < leafNodesPerPage,
      fsmGetAvail (fsmTruncateAvail page nslots).2 slot = if nslots ≤ slot then 0 else fsmGetAvail page slot := by
  have size := nodesPerPage_eq
  have inner := nonLeafNodesPerPage_eq
  rw [leafNodesPerPage_eq] at inside
  obtain ⟨values, unchanged⟩ := clearNodes (by omega : nonLeafNodesPerPage + nslots ≤ nodesPerPage) page.fpNodes
  simp only [fsmTruncateAvail]
  generalize forUp (nonLeafNodesPerPage + nslots) nodesPerPage clearNode (false, page.fpNodes) =
    s at values unchanged
  have slots : ∀ slot < leafNodesPerPage, s.2 (nonLeafNodesPerPage + slot) =
      if nslots ≤ slot then 0 else fsmGetAvail page slot := by
    grind [leafNodesPerPage_eq, fsmGetAvail]
  cases changed : s.1 with
  | true =>
    obtain ⟨rebuilt, same⟩ := fsmRebuildPage_spec { page with fpNodes := s.2 }
    exact ⟨rebuilt, fun slot low => (same slot low).trans (slots slot low)⟩
  | false =>
    have nodes : s.2 = page.fpNodes := by
      grind
    refine ⟨?_, slots⟩
    simp only [Bool.false_eq_true, ↓reduceIte, nodes]
    exact consistent

section Search

variable {nodes : Nat → Nat} {minvalue : Nat}

/-- The first loop ends at the root or at a node that promises enough, and stays where it is if it
can. -/
theorem searchUp_spec (nodes : Nat → Nat) (minvalue : Nat) (enough : nodeno ≤ fuel) :
    searchUp nodes minvalue fuel nodeno ≤ nodeno ∧
      (searchUp nodes minvalue fuel nodeno = 0 ∨ minvalue ≤ nodes (searchUp nodes minvalue fuel nodeno)) ∧
      (searchUp nodes minvalue fuel nodeno = nodeno ∨ nodes nodeno < minvalue) := by
  induction fuel generalizing nodeno with
  | zero =>
    obtain rfl : nodeno = 0 := by omega
    exact ⟨le_rfl, Or.inl rfl, Or.inl rfl⟩
  | succ fuel ih =>
    grind [searchUp, parentof, rightneighbor]

theorem searchDown_sound (found : searchDown nodes minvalue fuel nodeno = some leaf) (inside : nodeno < nodesPerPage)
    (holds : minvalue ≤ nodes nodeno) : nonLeafNodesPerPage ≤ leaf ∧ leaf < nodesPerPage ∧ minvalue ≤ nodes leaf := by
  induction fuel generalizing nodeno with
  | zero => cases found
  | succ fuel ih =>
    grind [searchDown]

theorem searchDown_total (consistent : MaxTree.Consistent nodesPerPage nonLeafNodesPerPage nodes) (pos : 0 < minvalue)
    (inside : nodeno < nodesPerPage) (holds : minvalue ≤ nodes nodeno) (some : 0 < fuel)
    (enough : nonLeafNodesPerPage < nodeno + fuel) : ∃ leaf, searchDown nodes minvalue fuel nodeno = .some leaf := by
  induction fuel generalizing nodeno with
  | zero => omega
  | succ fuel ih =>
    rw [searchDown]
    by_cases inner : nodeno < nonLeafNodesPerPage
    · rw [if_pos inner]
      by_cases left : leftchild nodeno < nodesPerPage ∧ nodes (leftchild nodeno) ≥ minvalue
      · grind [leftchild]
      · simp only [if_neg left]
        have right : leftchild nodeno + 1 < nodesPerPage ∧ nodes (leftchild nodeno + 1) ≥ minvalue := by
          rw [consistent nodeno inner] at holds
          obtain ⟨child, rfl | rfl, there, enough⟩ := MaxTree.exists_child (bot_lt_iff_ne_bot.mpr pos.ne') holds
          · exact absurd ⟨there, enough⟩ left
          · exact ⟨there, enough⟩
        grind [leftchild]
    · rw [if_neg inner]
      exact ⟨nodeno, rfl⟩

theorem searchTarget_spec (page : FSMPage) : nonLeafNodesPerPage ≤ searchTarget page ∧
    searchTarget page < nodesPerPage := by
  grind [nodesPerPage_eq, nonLeafNodesPerPage_eq, leafNodesPerPage_eq, searchTarget]

def attempt (page : FSMPage) (minvalue : Nat) : Option Nat :=
  searchDown page.fpNodes minvalue (nonLeafNodesPerPage + 1)
    (searchUp page.fpNodes minvalue (searchTarget page) (searchTarget page))

theorem searchUp_target (page : FSMPage) (promised : ¬ page.fpNodes 0 < minvalue) :
    let nodeno := searchUp page.fpNodes minvalue (searchTarget page) (searchTarget page)
    nodeno < nodesPerPage ∧ minvalue ≤ page.fpNodes nodeno ∧ (nonLeafNodesPerPage ≤ nodeno ∨ 0 < minvalue) := by
  obtain ⟨first, last⟩ := searchTarget_spec page
  grind [searchUp_spec]

theorem attempt_sound (promised : ¬ page.fpNodes 0 < minvalue) (found : attempt page minvalue = some leaf) :
    nonLeafNodesPerPage ≤ leaf ∧ leaf < nodesPerPage ∧ minvalue ≤ page.fpNodes leaf := by
  obtain ⟨inside, holds, -⟩ := searchUp_target page promised
  exact searchDown_sound found inside holds

theorem attempt_total (consistent : Consistent page) (promised : ¬ page.fpNodes 0 < minvalue) :
    ∃ leaf, attempt page minvalue = some leaf := by
  obtain ⟨inside, holds, leaf | pos⟩ := searchUp_target page promised
  · rw [attempt, searchDown, if_neg (by omega)]
    exact ⟨_, rfl⟩
  · exact searchDown_total consistent pos inside holds (by omega) (by omega)

/-- An answer is right for the slots of a page: no slot holds enough, or the one returned does. -/
def Right (page : FSMPage) (minvalue : Nat) (answer : Int) : Prop :=
  (answer = -1 ∧ ∀ slot < leafNodesPerPage, fsmGetAvail page slot < minvalue) ∨
    ∃ slot < leafNodesPerPage, answer = slot ∧ minvalue ≤ fsmGetAvail page slot

theorem fsmSearchAvail_unpromised (unpromised : page.fpNodes 0 < minvalue) (advancenext : Bool) (some : 0 < restarts) :
    fsmSearchAvail minvalue advancenext restarts page = .some (-1, page) := by
  obtain ⟨more, rfl⟩ : ∃ more, restarts = more + 1 := ⟨restarts - 1, by omega⟩
  rw [fsmSearchAvail, if_pos unpromised]

theorem fsmSearchAvail_found (promised : ¬ page.fpNodes 0 < minvalue) (found : attempt page minvalue = some leaf)
    (advancenext : Bool) :
    ∃ slot < leafNodesPerPage, (∀ restarts > 0, fsmSearchAvail minvalue advancenext restarts page =
        some ((slot : Int), { page with fpNextSlot := (slot : Int) + if advancenext then 1 else 0 })) ∧
      minvalue ≤ fsmGetAvail page slot := by
  obtain ⟨first, last, holds⟩ := attempt_sound promised found
  have size := nodesPerPage_eq
  have inner := nonLeafNodesPerPage_eq
  have slots := leafNodesPerPage_eq
  refine ⟨leaf - nonLeafNodesPerPage, by omega, fun restarts some => ?_, ?_⟩
  · obtain ⟨more, rfl⟩ : ∃ more, restarts = more + 1 := ⟨restarts - 1, by omega⟩
    grind [attempt, fsmSearchAvail]
  · rw [fsmGetAvail, Nat.add_sub_cancel' first]
    exact holds

theorem fsmSearchAvail_lost (promised : ¬ page.fpNodes 0 < minvalue) (lost : attempt page minvalue = none)
    (advancenext : Bool) (some : 0 < restarts) : fsmSearchAvail minvalue advancenext restarts page =
      fsmSearchAvail minvalue advancenext (restarts - 1) (fsmRebuildPage page).2 := by
  obtain ⟨more, rfl⟩ : ∃ more, restarts = more + 1 := ⟨restarts - 1, by omega⟩
  grind [attempt, fsmSearchAvail]

theorem fsmSearchAvail_consistent (consistent : Consistent page) (minvalue : Nat) (advancenext : Bool) :
    ∃ answer next, (∀ restarts > 0, fsmSearchAvail minvalue advancenext restarts page =
      some (answer, { page with fpNextSlot := next })) ∧ Right page minvalue answer := by
  by_cases promised : page.fpNodes 0 < minvalue
  · refine ⟨-1, page.fpNextSlot, fun restarts some => fsmSearchAvail_unpromised promised advancenext some,
      Or.inl ⟨rfl, fun slot low => ?_⟩⟩
    have size := nodesPerPage_eq
    have inner := nonLeafNodesPerPage_eq
    rw [leafNodesPerPage_eq] at low
    exact lt_of_le_of_lt (consistent.le_root (by omega) (by omega)) promised
  · obtain ⟨leaf, found⟩ := attempt_total consistent promised
    obtain ⟨slot, low, result, holds⟩ := fsmSearchAvail_found promised found advancenext
    exact ⟨slot, _, result, Or.inr ⟨slot, low, rfl, holds⟩⟩

theorem SameSlots.right (same : SameSlots page page') (right : Right page' minvalue answer) :
    Right page minvalue answer := by
  rcases right with ⟨none, small⟩ | ⟨slot, low, answers, holds⟩
  · exact Or.inl ⟨none, fun slot low => same slot low ▸ small slot low⟩
  · exact Or.inr ⟨slot, low, answers, same slot low ▸ holds⟩

theorem fsmSearchAvail_again (consistent : Consistent rebuilt) (same : SameSlots page rebuilt)
    (again : ∀ restarts > 0, fsmSearchAvail minvalue advancenext restarts page =
      fsmSearchAvail minvalue advancenext (restarts - 1) rebuilt) :
    ∃ answer page', (∀ restarts ≥ 2, fsmSearchAvail minvalue advancenext restarts page = some (answer, page')) ∧
      SameSlots page page' ∧ Right page minvalue answer := by
  obtain ⟨answer, next, result, right⟩ := fsmSearchAvail_consistent consistent minvalue advancenext
  refine ⟨answer, { rebuilt with fpNextSlot := next }, fun restarts some => ?_, same, same.right right⟩
  rw [again restarts (by omega), result (restarts - 1) (by omega)]

/-- On any page a search ends after at most one restart. A page that does not promise enough is
taken at its word; else the answer is right for the slots. -/
theorem fsmSearchAvail_any (page : FSMPage) (minvalue : Nat) (advancenext : Bool) :
    ∃ answer page', (∀ restarts ≥ 2, fsmSearchAvail minvalue advancenext restarts page = some (answer, page')) ∧
      SameSlots page page' ∧ if fsmGetMaxAvail page < minvalue then answer = -1 else Right page minvalue answer := by
  by_cases promised : page.fpNodes 0 < minvalue
  · refine ⟨-1, page, fun restarts some => fsmSearchAvail_unpromised promised advancenext (by omega),
      fun _ _ => rfl, ?_⟩
    rw [if_pos (show fsmGetMaxAvail page < minvalue from promised)]
  · have proceeds : ¬ fsmGetMaxAvail page < minvalue := promised
    simp only [if_neg proceeds]
    cases found : attempt page minvalue with
    | some leaf =>
      obtain ⟨slot, low, result, holds⟩ := fsmSearchAvail_found promised found advancenext
      exact ⟨slot, _, fun restarts some => result restarts (by omega), fun _ _ => rfl, Or.inr ⟨slot, low, rfl, holds⟩⟩
    | none =>
      -- the nodes are computed again, and the second attempt is right
      obtain ⟨consistent, same⟩ := fsmRebuildPage_spec page
      exact fsmSearchAvail_again consistent same fun restarts some =>
        fsmSearchAvail_lost promised found advancenext some

end Search

/-- The operations on a page of the map. -/
inductive PageOp where
  | setAvail (slot : Fin leafNodesPerPage) (value : Nat)
  | truncateAvail (nslots : Fin leafNodesPerPage)
  | rebuildPage
  | searchAvail (minvalue : Nat) (advancenext : Bool)

/-- The page after an operation. -/
def PageOp.apply (page : FSMPage) : PageOp → FSMPage
  | .setAvail slot value => (fsmSetAvail page slot value).2
  | .truncateAvail nslots => (fsmTruncateAvail page nslots).2
  | .rebuildPage => (fsmRebuildPage page).2
  | .searchAvail minvalue advancenext => ((fsmSearchAvail minvalue advancenext 2 page).map Prod.snd).getD page

/-- The value last set for each slot. -/
def PageOp.record (slots : Fin leafNodesPerPage → Nat) : PageOp → Fin leafNodesPerPage → Nat
  | .setAvail slot value => update slots slot value
  | .truncateAvail nslots => fun slot => if nslots ≤ slot then 0 else slots slot
  | .rebuildPage => slots
  | .searchAvail _ _ => slots

def Holds (page : FSMPage) (slots : Fin leafNodesPerPage → Nat) : Prop :=
  Consistent page ∧ ∀ slot : Fin leafNodesPerPage, fsmGetAvail page slot = slots slot

theorem Holds.apply {slots : Fin leafNodesPerPage → Nat} (holds : Holds page slots) (op : PageOp) :
    Holds (op.apply page) (op.record slots) := by
  obtain ⟨consistent, values⟩ := holds
  cases op with
  | setAvail slot value =>
    obtain ⟨kept, own, others⟩ := fsmSetAvail_spec consistent slot.isLt value
    refine ⟨kept, fun other => ?_⟩
    by_cases here : other = slot
    · rw [here, PageOp.record, update_self]
      exact own
    · rw [PageOp.record, update_of_ne here, ← values]
      exact others other other.isLt (Fin.val_ne_of_ne here)
  | truncateAvail nslots =>
    obtain ⟨kept, cleared⟩ := fsmTruncateAvail_spec consistent nslots.isLt.le
    refine ⟨kept, fun slot => (cleared slot slot.isLt).trans ?_⟩
    rw [values]
    rfl
  | rebuildPage =>
    obtain ⟨kept, same⟩ := fsmRebuildPage_spec page
    exact ⟨kept, fun slot => (same slot slot.isLt).trans (values slot)⟩
  | searchAvail minvalue advancenext =>
    obtain ⟨answer, next, result, -⟩ := fsmSearchAvail_consistent consistent minvalue advancenext
    simp only [PageOp.apply, result 2 (by decide), Option.map_some, Option.getD_some]
    exact ⟨consistent, values⟩

/-- After any operations on a zeroed page every inner node is the maximum of its children, the
slots hold what was last set, and a search answers `-1` exactly if no slot holds enough. On a page
of any contents a search ends too; it is right for the slots unless the root promises too little,
when it answers `-1`. -/
theorem fsm_page_correct (ops : List PageOp) : let page := run PageOp.apply zeroedPage ops
    let slots := run PageOp.record (fun _ => 0) ops
    (∀ nodeno < nonLeafNodesPerPage, page.fpNodes nodeno = MaxTree.childMax nodesPerPage page.fpNodes nodeno) ∧
    (∀ slot : Fin leafNodesPerPage, fsmGetAvail page slot = slots slot) ∧ (∀ minvalue advancenext, ∃ answer page',
      (∀ restarts ≥ 2, fsmSearchAvail minvalue advancenext restarts page = some (answer, page')) ∧
        ((answer = -1 ∧ ∀ slot, slots slot < minvalue) ∨
          ∃ slot : Fin leafNodesPerPage, answer = slot ∧ minvalue ≤ slots slot)) ∧
    ∀ corrupt minvalue advancenext, ∃ answer page',
      (∀ restarts ≥ 2, fsmSearchAvail minvalue advancenext restarts corrupt = some (answer, page')) ∧
        (∀ slot : Fin leafNodesPerPage, fsmGetAvail page' slot = fsmGetAvail corrupt slot) ∧
        ((answer = -1 ∧ (fsmGetMaxAvail corrupt < minvalue ∨
            ∀ slot : Fin leafNodesPerPage, fsmGetAvail corrupt slot < minvalue)) ∨
          fsmGetMaxAvail corrupt ≥ minvalue ∧
            ∃ slot : Fin leafNodesPerPage, answer = slot ∧ minvalue ≤ fsmGetAvail corrupt slot) := by
  intro page slots
  have holds : Holds page slots :=
    run_simulates ⟨consistent_zeroed, fun _ => rfl⟩ (fun _ _ op holds => holds.apply op) ops
  refine ⟨holds.1, holds.2, fun minvalue advancenext => ?_, fun corrupt minvalue advancenext => ?_⟩
  · obtain ⟨answer, next, result, right⟩ := fsmSearchAvail_consistent holds.1 minvalue advancenext
    refine ⟨answer, { page with fpNextSlot := next }, fun restarts enough => result restarts (by omega), ?_⟩
    rcases right with ⟨none, small⟩ | ⟨slot, low, answers, enough⟩
    · exact Or.inl ⟨none, fun slot => holds.2 slot ▸ small slot slot.isLt⟩
    · exact Or.inr ⟨⟨slot, low⟩, answers, holds.2 ⟨slot, low⟩ ▸ enough⟩
  · obtain ⟨answer, page', result, same, right⟩ := fsmSearchAvail_any corrupt minvalue advancenext
    refine ⟨answer, page', result, fun slot => same slot slot.isLt, ?_⟩
    by_cases promised : fsmGetMaxAvail corrupt < minvalue
    · grind
    · rw [if_neg promised] at right
      rcases right with ⟨none, small⟩ | ⟨slot, low, answers, enough⟩
      · grind
      · exact Or.inr ⟨by omega, ⟨slot, low⟩, answers, enough⟩

def brokenRoot : FSMPage := ⟨0, update (fun _ => 0) nonLeafNodesPerPage 5⟩

/-- A root that promises too little hides a slot that would do. -/
theorem broken_root_hides :
    (fsmSearchAvail 1 false 2 brokenRoot).map Prod.fst = some (-1) ∧ fsmGetAvail brokenRoot 0 = 5 := by
  decide

end BlockchainPG.Storage.Fsm
