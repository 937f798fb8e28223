import BlockchainPG.Storage.FsmPage

/-! The free space map of a relation, `freespace.c`: pages of slots in three levels. -/

namespace BlockchainPG.Storage.Fsm

section

open Lib Function

def slotsPerFSMPage : Nat := leafNodesPerPage

theorem slotsPerFSMPage_eq : slotsPerFSMPage = 4069 := rfl

def fsmTreeDepth : Nat := if slotsPerFSMPage ≥ 1626 then 3 else 4

def fsmRootLevel : Nat := fsmTreeDepth - 1

theorem fsmRootLevel_eq : fsmRootLevel = 2 := rfl

def fsmCatStep : Nat := pageSize / 256

def maxFSMRequestSize : Nat := pageSize - maxAlign (sizeOfPageHeaderData + sizeOfItemIdData)

@[ext]
structure FSMAddress where
  level : Nat
  logpageno : Nat
deriving DecidableEq

/-- The fork of the map: its pages by physical block number. -/
structure Fork where
  nblocks : Nat
  page : Nat → FSMPage

def fsmSpaceAvailToCat (avail : Nat) : Nat :=
  if avail ≥ maxFSMRequestSize then 255
  else
    let cat := avail / fsmCatStep
    if cat > 254 then 254 else cat

/-- `fsm_space_needed_to_cat`; too large a request is an error. -/
def fsmSpaceNeededToCat (needed : Nat) : Option Nat :=
  if needed > maxFSMRequestSize then none
  else if needed = 0 then some 1
  else
    let cat := (needed + fsmCatStep - 1) / fsmCatStep
    some (if cat > 255 then 255 else cat)

def fsmLogicalToPhysical (addr : FSMAddress) : Nat :=
  let leafno := forUp 0 addr.level (fun _ leafno => leafno * slotsPerFSMPage) addr.logpageno
  let counted := forUp 0 fsmTreeDepth
    (fun _ (state : Nat × Nat) => (state.1 + state.2 + 1, state.2 / slotsPerFSMPage)) (0, leafno)
  counted.1 - addr.level - 1

/-- `fsm_get_location`: the bottom page and the slot. -/
def fsmGetLocation (heapblk : Nat) : FSMAddress × Nat :=
  (⟨0, heapblk / slotsPerFSMPage⟩, heapblk % slotsPerFSMPage)

/-- `fsm_get_heap_blk` in 32-bit arithmetic. -/
def fsmGetHeapBlk (addr : FSMAddress) (slot : Nat) : Nat := (addr.logpageno * slotsPerFSMPage + slot) % 2 ^ 32

def fsmGetParent (child : FSMAddress) : FSMAddress × Nat :=
  (⟨child.level + 1, child.logpageno / slotsPerFSMPage⟩, child.logpageno % slotsPerFSMPage)

def fsmGetChild (parent : FSMAddress) (slot : Nat) : FSMAddress :=
  ⟨parent.level - 1, parent.logpageno * slotsPerFSMPage + slot⟩

namespace Fork

def Exists (rel : Fork) (addr : FSMAddress) : Prop := fsmLogicalToPhysical addr < rel.nblocks

instance (rel : Fork) (addr : FSMAddress) : Decidable (rel.Exists addr) := inferInstanceAs (Decidable (_ < _))

def pageAt (rel : Fork) (addr : FSMAddress) : FSMPage := rel.page (fsmLogicalToPhysical addr)

def write (rel : Fork) (addr : FSMAddress) (page : FSMPage) : Fork :=
  { rel with page := update rel.page (fsmLogicalToPhysical addr) page }

/-- `fsm_readbuf` without extending the file. -/
def fsmReadbuf (rel : Fork) (addr : FSMAddress) : Option FSMPage :=
  if rel.Exists addr then some (rel.pageAt addr) else none

/-- `fsm_extend`: zeroed pages up to a number of blocks. -/
def fsmExtend (rel : Fork) (fsmNblocks : Nat) : Fork where
  nblocks := max rel.nblocks fsmNblocks
  page := fun block => if rel.nblocks ≤ block ∧ block < fsmNblocks then zeroedPage else rel.page block

/-- The file once `fsm_readbuf` has extended it to hold a page. -/
def readExtending (rel : Fork) (addr : FSMAddress) : Fork :=
  if rel.Exists addr then rel else rel.fsmExtend (fsmLogicalToPhysical addr + 1)

end Fork

/-- `fsm_search_avail` of one page: it never takes more than one restart. -/
def searchPage (page : FSMPage) (minvalue : Nat) (advancenext : Bool) : Int × FSMPage :=
  (fsmSearchAvail minvalue advancenext 2 page).getD (-1, page)

def fsmSetAndSearch (rel : Fork) (addr : FSMAddress) (slot newValue minValue : Nat) : Int × Fork :=
  let rel := rel.readExtending addr
  let page := (fsmSetAvail (rel.pageAt addr) slot newValue).2
  if minValue ≠ 0 then
    let found := searchPage page minValue (addr.level = 0)
    (found.1, rel.write addr found.2)
  else (-1, rel.write addr page)

/-- How one way down from the root ends. -/
inductive Descent where
  | found (heapBlk : Nat)
  | failed (addr : FSMAddress) (maxAvail : Nat)

/-- The part of the loop of `fsm_search` from one page downwards. -/
def descend (minCat : Nat) : (level : Nat) → Fork → (logpageno : Nat) → Descent × Fork
  | level, rel, logpageno =>
    let addr : FSMAddress := ⟨level, logpageno⟩
    match rel.fsmReadbuf addr with
    | none => (.failed addr 0, rel)
    | some page =>
      let found := searchPage page minCat (level = 0)
      let rel := rel.write addr found.2
      if found.1 ≠ -1 then
        match level with
        | 0 => (.found (fsmGetHeapBlk addr found.1.toNat), rel)
        | level + 1 => descend minCat level rel (fsmGetChild addr found.1.toNat).logpageno
      else (.failed addr (fsmGetMaxAvail found.2), rel)

/-- The loop of `fsm_search` with the restarts that are left. -/
def searchLoop (minCat left : Nat) (rel : Fork) : Option Nat × Fork :=
  let walked := descend minCat fsmRootLevel rel 0
  match walked.1 with
  | .found heapBlk => (some heapBlk, walked.2)
  | .failed addr maxAvail =>
    if addr.level = fsmRootLevel then (none, walked.2)
    else
      let rel := (fsmSetAndSearch walked.2 (fsmGetParent addr).1 (fsmGetParent addr).2 maxAvail 0).2
      match left with
      | 0 => (none, rel)
      | left + 1 => searchLoop minCat left rel

/-- `fsm_search`; `none` is `InvalidBlockNumber`. -/
def fsmSearch (rel : Fork) (minCat : Nat) : Option Nat × Fork := searchLoop minCat 10001 rel

def fixSlot (rel : Fork) (addr : FSMAddress) (slot value : Nat) : Fork :=
  if fsmGetAvail (rel.pageAt addr) slot ≠ value then
    rel.write addr (fsmSetAvail (rel.pageAt addr) slot value).2
  else rel

/-- A round of the loop of `fsm_vacuum_page`; the first argument is the call for a child. -/
def vacuumSlot (vacuum : Fork → Nat → (Nat × Bool) × Fork) (addr : FSMAddress) (slot : Nat) (state : Bool × Fork) :
    Bool × Fork :=
  if state.1 then (true, fixSlot state.2 addr slot 0)
  else
    let child := vacuum state.2 (fsmGetChild addr slot).logpageno
    (child.1.2, fixSlot child.2 addr slot child.1.1)

/-- `fsm_vacuum_page`: the greatest value of the page and whether it is behind the end of the file. -/
def fsmVacuumPage : (level : Nat) → Fork → (logpageno : Nat) → (Nat × Bool) × Fork
  | level, rel, logpageno =>
    let addr : FSMAddress := ⟨level, logpageno⟩
    if rel.Exists addr then
      let rel :=
        match level with
        | 0 => rel
        | level + 1 =>
          (forUp 0 slotsPerFSMPage (vacuumSlot (fun rel logpageno => fsmVacuumPage level rel logpageno) addr)
            (false, rel)).2
      ((fsmGetMaxAvail (rel.pageAt addr), false), rel.write addr { rel.pageAt addr with fpNextSlot := 0 })
    else ((0, true), rel)

def getPageWithFreeSpace (rel : Fork) (spaceNeeded : Nat) : Option Nat × Fork :=
  match fsmSpaceNeededToCat spaceNeeded with
  | none => (none, rel)
  | some minCat => fsmSearch rel minCat

def recordPageWithFreeSpace (rel : Fork) (heapBlk spaceAvail : Nat) : Fork :=
  (fsmSetAndSearch rel (fsmGetLocation heapBlk).1 (fsmGetLocation heapBlk).2 (fsmSpaceAvailToCat spaceAvail) 0).2

def recordAndGetPageWithFreeSpace (rel : Fork) (oldPage oldSpaceAvail spaceNeeded : Nat) : Option Nat × Fork :=
  match fsmSpaceNeededToCat spaceNeeded with
  | none => (none, rel)
  | some searchCat =>
    let addr := (fsmGetLocation oldPage).1
    let found := fsmSetAndSearch rel addr (fsmGetLocation oldPage).2 (fsmSpaceAvailToCat oldSpaceAvail) searchCat
    if found.1 ≠ -1 then (some (fsmGetHeapBlk addr found.1.toNat), found.2) else fsmSearch found.2 searchCat

/-- `FreeSpaceMapTruncateRel`. A file without blocks has not been created. -/
def freeSpaceMapTruncateRel (rel : Fork) (nblocks : Nat) : Fork :=
  let addr := (fsmGetLocation nblocks).1
  let slot := (fsmGetLocation nblocks).2
  if rel.nblocks = 0 then rel
  else if slot > 0 then
    if rel.Exists addr then
      { rel.write addr (fsmTruncateAvail (rel.pageAt addr) slot).2 with nblocks := fsmLogicalToPhysical addr + 1 }
    else rel
  else if rel.nblocks ≤ fsmLogicalToPhysical addr then rel
  else { rel with nblocks := fsmLogicalToPhysical addr }

def freeSpaceMapVacuum (rel : Fork) : Fork := (fsmVacuumPage fsmRootLevel rel 0).2

/-- The addresses that heap blocks and the pages above them have. -/
def Valid (addr : FSMAddress) : Prop :=
  (addr.level = 0 ∧ addr.logpageno < slotsPerFSMPage * slotsPerFSMPage) ∨
    (addr.level = 1 ∧ addr.logpageno < slotsPerFSMPage) ∨ (addr.level = 2 ∧ addr.logpageno = 0)

theorem physical_bottom (n : Nat) : fsmLogicalToPhysical ⟨0, n⟩ = n + n / 4069 + n / 4069 / 4069 + 2 := by
  have counted : fsmLogicalToPhysical ⟨0, n⟩ =
      0 + n + 1 + n / slotsPerFSMPage + 1 + n / slotsPerFSMPage / slotsPerFSMPage + 1 - 0 - 1 := rfl
  rw [counted, slotsPerFSMPage_eq]
  omega

theorem physical_middle (n : Nat) : fsmLogicalToPhysical ⟨1, n⟩ = n * 4069 + n + n / 4069 + 1 := by
  have counted : fsmLogicalToPhysical ⟨1, n⟩ = 0 + n * slotsPerFSMPage + 1 + n * slotsPerFSMPage / slotsPerFSMPage + 1 +
      n * slotsPerFSMPage / slotsPerFSMPage / slotsPerFSMPage + 1 - 1 - 1 := rfl
  rw [counted, slotsPerFSMPage_eq]
  omega

theorem physical_root : fsmLogicalToPhysical ⟨2, 0⟩ = 0 := rfl

theorem Valid.physical (valid : Valid addr) : (addr.level = 0 ∧ addr.logpageno < 4069 * 4069 ∧
      fsmLogicalToPhysical addr = addr.logpageno + addr.logpageno / 4069 + 2) ∨
    (addr.level = 1 ∧ addr.logpageno < 4069 ∧ fsmLogicalToPhysical addr = addr.logpageno * 4070 + 1) ∨
    (addr.level = 2 ∧ addr.logpageno = 0 ∧ fsmLogicalToPhysical addr = 0) := by
  obtain ⟨level, n⟩ := addr
  grind [Valid, slotsPerFSMPage_eq, physical_bottom, physical_middle, physical_root]

theorem physical_inj (first : Valid a) (second : Valid b) (same : fsmLogicalToPhysical a = fsmLogicalToPhysical b) :
    a = b := by
  have left := first.physical
  have right := second.physical
  exact FSMAddress.ext (by omega) (by omega)

theorem valid_bottom (low : n < slotsPerFSMPage * slotsPerFSMPage) : Valid ⟨0, n⟩ := Or.inl ⟨rfl, low⟩

theorem valid_middle (low : n < slotsPerFSMPage) : Valid ⟨1, n⟩ := Or.inr (Or.inl ⟨rfl, low⟩)

theorem valid_root : Valid ⟨2, 0⟩ := Or.inr (Or.inr ⟨rfl, rfl⟩)

theorem valid_location (low : heapblk < 2 ^ 32) :
    Valid (fsmGetLocation heapblk).1 ∧ (fsmGetLocation heapblk).2 < slotsPerFSMPage := by
  refine ⟨valid_bottom ?_, Nat.mod_lt _ (by decide)⟩
  rw [slotsPerFSMPage_eq]
  omega

theorem Valid.child (valid : Valid ⟨level + 1, n⟩) (low : slot < slotsPerFSMPage) :
    Valid ⟨level, n * slotsPerFSMPage + slot⟩ := by
  rw [slotsPerFSMPage_eq] at low
  rcases valid with ⟨wrong, -⟩ | ⟨same, small⟩ | ⟨same, rfl⟩
  · exact absurd wrong (Nat.succ_ne_zero level)
  · grind [slotsPerFSMPage_eq, valid_bottom]
  · grind [valid_middle, slotsPerFSMPage_eq]

theorem parent_child (level n : Nat) (low : slot < slotsPerFSMPage) :
    fsmGetParent ⟨level, n * slotsPerFSMPage + slot⟩ = (⟨level + 1, n⟩, slot) := by
  grind [slotsPerFSMPage_eq, fsmGetParent]

section Nodes

variable {rel : Fork}

namespace Fork

/-- The nodes of a page; those of a missing page count as zero. -/
def nodesOf (rel : Fork) (addr : FSMAddress) : Nat → Nat :=
    if rel.Exists addr then (rel.pageAt addr).fpNodes else fun _ => 0

/-- The value of a slot. -/
def avail (rel : Fork) (addr : FSMAddress) (slot : Nat) : Nat := rel.nodesOf addr (nonLeafNodesPerPage + slot)

/-- What the root node of a page promises. -/
def top (rel : Fork) (addr : FSMAddress) : Nat := rel.nodesOf addr 0

def Consistent (rel : Fork) : Prop :=
  ∀ addr, Valid addr → MaxTree.Consistent nodesPerPage nonLeafNodesPerPage (rel.nodesOf addr)

def SameNodes (rel rel' : Fork) : Prop := ∀ addr, Valid addr → rel'.nodesOf addr = rel.nodesOf addr

theorem nodesOf_exists (here : rel.Exists addr) : rel.nodesOf addr = (rel.pageAt addr).fpNodes := if_pos here

theorem nodesOf_missing (missing : ¬ rel.Exists addr) : rel.nodesOf addr = fun _ => 0 := if_neg missing

theorem nodesOf_write (valid : Valid addr) (here : rel.Exists addr) (page : FSMPage) (known : Valid other) :
    (rel.write addr page).nodesOf other = if other = addr then page.fpNodes else rel.nodesOf other := by
  have same : (rel.write addr page).Exists other ↔ rel.Exists other := Iff.rfl
  by_cases own : other = addr
  · subst own
    have written : (rel.write other page).pageAt other = page := update_self _ _ _
    rw [if_pos rfl, nodesOf_exists (same.mpr here), written]
  · have apart : fsmLogicalToPhysical other ≠ fsmLogicalToPhysical addr := fun equal =>
      own (physical_inj known valid equal)
    have kept : (rel.write addr page).pageAt other = rel.pageAt other := update_of_ne apart _ _
    rw [if_neg own, nodesOf, nodesOf, kept]
    rfl

theorem nodesOf_extend (rel : Fork) (fsmNblocks : Nat) (addr : FSMAddress) :
    (rel.fsmExtend fsmNblocks).nodesOf addr = rel.nodesOf addr := by
  by_cases here : rel.Exists addr
  · have still : (rel.fsmExtend fsmNblocks).Exists addr := lt_of_lt_of_le here (le_max_left _ _)
    have page : (rel.fsmExtend fsmNblocks).pageAt addr = rel.pageAt addr :=
      if_neg fun behind => absurd here (not_lt.mpr behind.1)
    rw [nodesOf_exists here, nodesOf_exists still, page]
  · rw [nodesOf_missing here]
    by_cases added : (rel.fsmExtend fsmNblocks).Exists addr
    · have page : (rel.fsmExtend fsmNblocks).pageAt addr = zeroedPage := by
        refine if_pos ⟨not_lt.mp here, ?_⟩
        exact (lt_max_iff.mp added).resolve_left here
      rw [nodesOf_exists added, page]
      rfl
    · exact nodesOf_missing added

theorem nodesOf_readExtending (rel : Fork) (addr other : FSMAddress) :
    (rel.readExtending addr).nodesOf other = rel.nodesOf other := by
  rw [readExtending]
  split
  · rfl
  · exact nodesOf_extend rel _ other

theorem exists_readExtending (rel : Fork) (addr : FSMAddress) : (rel.readExtending addr).Exists addr := by
  rw [readExtending]
  split
  · assumption
  · exact lt_max_of_lt_right (Nat.lt_succ_self _)

theorem Consistent.sameNodes (consistent : rel.Consistent) (same : SameNodes rel rel') : rel'.Consistent := by
  intro addr valid
  rw [same addr valid]
  exact consistent addr valid

theorem Consistent.exists_slot (consistent : rel.Consistent) (valid : Valid addr) (pos : 0 < minCat)
    (promised : minCat ≤ rel.top addr) : ∃ slot < slotsPerFSMPage, minCat ≤ rel.avail addr slot := by
  have size := nodesPerPage_eq
  have inner := nonLeafNodesPerPage_eq
  have slots := slotsPerFSMPage_eq
  obtain ⟨leaf, low, high, holds⟩ := (consistent addr valid).exists_leaf (bot_lt_iff_ne_bot.mpr pos.ne')
    (by omega : 0 < nodesPerPage) promised
  refine ⟨leaf - nonLeafNodesPerPage, by omega, ?_⟩
  rw [avail, Nat.add_sub_cancel' low]
  exact holds

theorem Consistent.le_top (consistent : rel.Consistent) (valid : Valid addr) (low : slot < slotsPerFSMPage) :
    rel.avail addr slot ≤ rel.top addr := by
  have size := nodesPerPage_eq
  have inner := nonLeafNodesPerPage_eq
  have slots := slotsPerFSMPage_eq
  exact (consistent addr valid).le_root (by omega) (by omega)

end Fork

/-- One slot was set, and all pages are still consistent. -/
structure Sets (rel rel' : Fork) (addr : FSMAddress) (slot value : Nat) : Prop where
  consistent : rel'.Consistent
  others : ∀ other, Valid other → other ≠ addr → rel'.nodesOf other = rel.nodesOf other
  own : rel'.avail addr slot = value
  rest : ∀ other < slotsPerFSMPage, other ≠ slot → rel'.avail addr other = rel.avail addr other

theorem sets_write (consistent : rel.Consistent) (valid : Valid addr) (here : rel.Exists addr)
    (low : slot < slotsPerFSMPage) (value : Nat) (next : Int) :
    Sets rel (rel.write addr { (fsmSetAvail (rel.pageAt addr) slot value).2 with fpNextSlot := next }) addr slot
    value := by
  have own : Consistent (rel.pageAt addr) := by
    have := consistent addr valid
    rwa [Fork.nodesOf_exists here] at this
  obtain ⟨kept, set, others⟩ := fsmSetAvail_spec own low value
  have written : ∀ other, Valid other → _ := fun other known =>
    Fork.nodesOf_write valid here { (fsmSetAvail (rel.pageAt addr) slot value).2 with fpNextSlot := next } known
  refine ⟨fun other known => ?_, fun other known ne => ?_, ?_, fun other small ne => ?_⟩
  · rw [written other known]
    split
    · exact kept
    · exact consistent other known
  · rw [written other known, if_neg ne]
  · rw [Fork.avail, written addr valid, if_pos rfl]
    exact set
  · rw [Fork.avail, written addr valid, if_pos rfl, Fork.avail, Fork.nodesOf_exists here]
    exact others other small ne

def RightAt (rel : Fork) (addr : FSMAddress) (minCat : Nat) (answer : Int) : Prop :=
  (answer = -1 ∧ ∀ slot < slotsPerFSMPage, rel.avail addr slot < minCat) ∨
    ∃ slot < slotsPerFSMPage, answer = slot ∧ minCat ≤ rel.avail addr slot

theorem searchPage_spec (consistent : Consistent page) (minvalue : Nat) (advancenext : Bool) :
    ∃ answer next, searchPage page minvalue advancenext = (answer, { page with fpNextSlot := next }) ∧
      Right page minvalue answer := by
  obtain ⟨answer, next, result, right⟩ := fsmSearchAvail_consistent consistent minvalue advancenext
  exact ⟨answer, next, by rw [searchPage, result 2 (by decide), Option.getD_some], right⟩

theorem rightAt_write (valid : Valid addr) (here : rel.Exists addr) (right : Right page minCat answer) (next : Int) :
    RightAt (rel.write addr { page with fpNextSlot := next }) addr minCat answer := by
  have slots : ∀ slot, (rel.write addr { page with fpNextSlot := next }).avail addr slot = fsmGetAvail page slot := by
    intro slot
    rw [Fork.avail, Fork.nodesOf_write valid here _ valid, if_pos rfl]
    rfl
  simp only [RightAt, slots]
  exact right

theorem fsmSetAndSearch_spec (consistent : rel.Consistent) (valid : Valid addr) (low : slot < slotsPerFSMPage)
    (newValue minValue : Nat) : let set := fsmSetAndSearch rel addr slot newValue minValue
    Sets rel set.2 addr slot newValue ∧ if minValue = 0 then set.1 = -1 else RightAt set.2 addr minValue set.1 := by
  have same : ∀ other, (rel.readExtending addr).nodesOf other = rel.nodesOf other := rel.nodesOf_readExtending addr
  have here := rel.exists_readExtending addr
  have still : (rel.readExtending addr).Consistent := consistent.sameNodes fun other _ => same other
  have lift : ∀ {rel' : Fork}, Sets (rel.readExtending addr) rel' addr slot newValue →
    Sets rel rel' addr slot newValue :=
    fun sets => ⟨sets.consistent, fun other known ne => (sets.others other known ne).trans (same other),
      sets.own, fun other small ne => (sets.rest other small ne).trans (by rw [Fork.avail, same]; rfl)⟩
  by_cases none : minValue = 0
  · simp only [fsmSetAndSearch, none, ne_eq, not_true_eq_false, ↓reduceIte, and_true]
    exact lift (sets_write still valid here low newValue _)
  · have own : Consistent ((rel.readExtending addr).pageAt addr) := by
      have := still addr valid
      rwa [Fork.nodesOf_exists here] at this
    obtain ⟨kept, -, -⟩ := fsmSetAvail_spec own low newValue
    obtain ⟨answer, next, result, right⟩ := searchPage_spec kept minValue (addr.level = 0)
    grind [fsmSetAndSearch, sets_write, rightAt_write]

end Nodes

end

open List

/-- The pages from one page downwards, each in front of the pages below it. -/
def layout : (level : Nat) → (logpageno : Nat) → List FSMAddress
  | 0, logpageno => [⟨0, logpageno⟩]
  | level + 1, logpageno => ⟨level + 1, logpageno⟩ :: (List.range slotsPerFSMPage).flatMap fun slot =>
    layout level (fsmGetChild ⟨level + 1, logpageno⟩ slot).logpageno

/-- The pages of the map that lead to a heap block. -/
def Needed (addr : FSMAddress) : Prop :=
  ∃ heapblk < 2 ^ 32, ∃ k ≤ fsmRootLevel, (fun child => (fsmGetParent child).1)^[k] (fsmGetLocation heapblk).1 = addr

/-- A value that has to fit a number of bits. -/
def fits (bits value : Nat) : Option Nat := if value < 2 ^ bits then some value else none

/-- `fsm_logical_to_physical` with every result checked against its type: `leafno` is an `int`, `pages` is unsigned. -/
def checkedLogicalToPhysical (addr : FSMAddress) : Option Nat := do
  let leafno ← (List.range addr.level).foldlM (fun leafno _ => fits 31 (leafno * slotsPerFSMPage)) addr.logpageno
  let counted ← (List.range fsmTreeDepth).foldlM (fun (state : Nat × Nat) _ => do
    let pages ← fits 32 (state.1 + (← fits 31 (state.2 + 1)))
    return (pages, state.2 / slotsPerFSMPage)) (0, leafno)
  if counted.1 < addr.level + 1 then none else return counted.1 - addr.level - 1

theorem length_flatMap_range (f : Nat → List α) (size : ∀ q, (f q).length = m) (k : Nat) :
    ((List.range k).flatMap f).length = k * m := by
  simp [length_flatMap, size]

theorem getElem?_flatMap_range (f : Nat → List α) (size : ∀ q, (f q).length = m) (low : q < k) (small : r < m) :
    ((List.range k).flatMap f)[q * m + r]? = (f q)[r]? := by
  have length := length_flatMap_range f size
  induction k with
  | zero => omega
  | succ k ih =>
    rw [range_succ, flatMap_append]
    rcases Nat.lt_succ_iff_lt_or_eq.mp low with before | rfl
    · have inside : q * m + r < k * m := by
        calc q * m + r < q * m + m := by omega
          _ = (q + 1) * m := (Nat.succ_mul q m).symm
          _ ≤ k * m := Nat.mul_le_mul_right m before
      rw [getElem?_append_left (by rw [length]; exact inside), ih before]
    · rw [getElem?_append_right (by rw [length]; omega), length, Nat.add_sub_cancel_left]
      simp

theorem layout_middle (n : Nat) : layout 1 n =
    ⟨1, n⟩ :: (List.range slotsPerFSMPage).map fun slot => ⟨0, n * slotsPerFSMPage + slot⟩ := by
  rw [layout, map_eq_flatMap]
  rfl

theorem layout_middle_length (n : Nat) : (layout 1 n).length = 4070 := by
  rw [layout_middle, length_cons, length_map, length_range, slotsPerFSMPage_eq]

theorem layout_root : layout fsmRootLevel 0 = ⟨2, 0⟩ :: (List.range slotsPerFSMPage).flatMap (layout 1) := by
  rw [fsmRootLevel_eq, layout]
  simp only [fsmGetChild, Nat.zero_mul, Nat.zero_add]

theorem layout_at (low : i < 4069 * 4070 + 1) :
    ∃ addr, (layout fsmRootLevel 0)[i]? = some addr ∧ Valid addr ∧ fsmLogicalToPhysical addr = i := by
  rw [layout_root]
  cases i with
  | zero => exact ⟨_, rfl, valid_root, rfl⟩
  | succ j =>
    have row : j / 4070 < slotsPerFSMPage := by rw [slotsPerFSMPage_eq]; omega
    have found := getElem?_flatMap_range (layout 1) layout_middle_length row (Nat.mod_lt j (by decide : 0 < 4070))
    rw [Nat.div_add_mod'] at found
    rw [getElem?_cons_succ, found, layout_middle]
    cases place : j % 4070 with
    | zero =>
      refine ⟨_, rfl, valid_middle row, ?_⟩
      have physical := (valid_middle row).physical
      dsimp only at physical
      omega
    | succ slot =>
      have small : slot < slotsPerFSMPage := by rw [slotsPerFSMPage_eq]; omega
      have valid := (valid_middle row).child small
      refine ⟨⟨0, j / 4070 * slotsPerFSMPage + slot⟩, ?_, valid, ?_⟩
      · rw [getElem?_cons_succ, getElem?_map, getElem?_range small]
        rfl
      · have physical := valid.physical
        rw [slotsPerFSMPage_eq] at physical ⊢
        dsimp only at physical
        omega

/-- A page is stored at its place in the depth-first order. -/
theorem layout_getElem? (valid : Valid addr) :
    (layout fsmRootLevel 0)[i]? = some addr ↔ i = fsmLogicalToPhysical addr := by
  have bound : fsmLogicalToPhysical addr < 4069 * 4070 + 1 := by
    have physical := valid.physical
    omega
  obtain ⟨own, found, known, same⟩ := layout_at bound
  obtain rfl := physical_inj known valid same
  refine ⟨fun here => ?_, fun here => by rw [here, found]⟩
  have inside := (List.getElem?_eq_some_iff.mp here).1
  rw [layout_root, length_cons, length_flatMap_range _ layout_middle_length, slotsPerFSMPage_eq] at inside
  obtain ⟨other, found', -, same'⟩ := layout_at inside
  rw [here] at found'
  rw [Option.some.inj found', same']

theorem Needed.bounds (needed : Needed addr) : (addr.level = 0 ∧ addr.logpageno < 2 ^ 21 ∨
    addr.level = 1 ∧ addr.logpageno < 2 ^ 9 ∨ addr.level = 2 ∧ addr.logpageno = 0) := by
  obtain ⟨heapblk, low, k, level, rfl⟩ := needed
  have cases : k = 0 ∨ k = 1 ∨ k = 2 := by rw [fsmRootLevel_eq] at level; omega
  rcases cases with rfl | rfl | rfl
  · refine Or.inl ⟨rfl, ?_⟩
    change heapblk / 4069 < 2 ^ 21
    omega
  · refine Or.inr (Or.inl ⟨rfl, ?_⟩)
    change heapblk / 4069 / 4069 < 2 ^ 9
    omega
  · refine Or.inr (Or.inr ⟨rfl, ?_⟩)
    change heapblk / 4069 / 4069 / 4069 = 0
    omega

theorem Needed.valid (needed : Needed addr) : Valid addr := by
  have bounds := needed.bounds
  unfold Valid
  rw [slotsPerFSMPage_eq]
  omega

theorem fits_of_lt (low : value < 2 ^ bits) : fits bits value = some value := if_pos low

theorem checkedLogicalToPhysical_eq (needed : Needed addr) :
    checkedLogicalToPhysical addr = some (fsmLogicalToPhysical addr) := by
  obtain ⟨level, n⟩ := addr
  rcases needed.bounds with ⟨rfl, low⟩ | ⟨rfl, low⟩ | ⟨rfl, rfl⟩
  · dsimp only at low
    rw [physical_bottom, checkedLogicalToPhysical, slotsPerFSMPage_eq]
    simp (disch := omega) [fsmTreeDepth, slotsPerFSMPage_eq, range_succ, fits_of_lt]
    omega
  · dsimp only at low
    rw [physical_middle, checkedLogicalToPhysical, slotsPerFSMPage_eq]
    simp (disch := omega) [fsmTreeDepth, slotsPerFSMPage_eq, range_succ, fits_of_lt]
    omega
  · rfl

/-- Every page that a heap block needs has its own block in the file, the one of its rank; the ways up and down
and to the heap and back are inverse to each other, and nothing on them leaves its type. -/
theorem addresses_exact : Set.InjOn fsmLogicalToPhysical {addr | Needed addr} ∧
    (∀ addr, Needed addr → ∀ i, (layout fsmRootLevel 0)[i]? = some addr ↔ i = fsmLogicalToPhysical addr) ∧
    (∀ child, fsmGetChild (fsmGetParent child).1 (fsmGetParent child).2 = child) ∧
    (∀ parent slot, 0 < parent.level → slot < slotsPerFSMPage → fsmGetParent (fsmGetChild parent slot) =
      (parent, slot)) ∧
    (∀ heapblk < 2 ^ 32, fsmGetHeapBlk (fsmGetLocation heapblk).1 (fsmGetLocation heapblk).2 = heapblk) ∧
    (∀ n slot, slot < slotsPerFSMPage → n * slotsPerFSMPage + slot < 2 ^ 32 →
      fsmGetLocation (fsmGetHeapBlk ⟨0, n⟩ slot) = (⟨0, n⟩, slot)) ∧
    (∀ addr, Needed addr → checkedLogicalToPhysical addr = some (fsmLogicalToPhysical addr) ∧
      addr.logpageno < 2 ^ 31 ∧ (fsmGetParent addr).2 < 2 ^ 16 ∧
      (0 < addr.level → ∀ slot < slotsPerFSMPage, (fsmGetChild addr slot).logpageno < 2 ^ 31)) ∧
    (∀ heapblk < 2 ^ 32, (fsmGetLocation heapblk).2 < 2 ^ 16 ∧
      (fsmGetLocation heapblk).1.logpageno * slotsPerFSMPage + (fsmGetLocation heapblk).2 < 2 ^ 32) := by
  have back (heapblk : Nat) : (fsmGetLocation heapblk).1.logpageno * slotsPerFSMPage + (fsmGetLocation heapblk).2 =
      heapblk := Nat.div_add_mod' heapblk slotsPerFSMPage
  have slots := slotsPerFSMPage_eq
  refine ⟨fun a first b second same => physical_inj first.valid second.valid same,
    fun addr needed i => layout_getElem? needed.valid, fun child => ?_, fun parent slot above low => ?_,
    fun heapblk low => ?_, fun n slot low small => ?_, fun addr needed => ?_, fun heapblk low => ?_⟩
  · exact FSMAddress.ext rfl (Nat.div_add_mod' child.logpageno slotsPerFSMPage)
  · obtain ⟨_ | level, n⟩ := parent
    · cases above
    · exact parent_child level n low
  · rw [fsmGetHeapBlk, back, Nat.mod_eq_of_lt low]
  · rw [fsmGetHeapBlk, Nat.mod_eq_of_lt small]
    have parent := parent_child 0 n low
    simp only [fsmGetParent, Prod.mk.injEq, FSMAddress.mk.injEq] at parent
    rw [fsmGetLocation, parent.1.2, parent.2]
  · have bounds := needed.bounds
    have rest : addr.logpageno % slotsPerFSMPage < slotsPerFSMPage := Nat.mod_lt _ (by rw [slots]; decide)
    refine ⟨checkedLogicalToPhysical_eq needed, by omega, ?_, fun above slot low => ?_⟩
    · change addr.logpageno % slotsPerFSMPage < 2 ^ 16
      omega
    · change addr.logpageno * slotsPerFSMPage + slot < 2 ^ 31
      rw [slots] at low ⊢
      omega
  · refine ⟨?_, by rw [back]; exact low⟩
    have rest := (valid_location low).2
    omega

end BlockchainPG.Storage.Fsm
