import BlockchainPG.Mbt.RangeQuery

/-! Which range queries are answered in full, among insertions in any order. -/

namespace BlockchainPG.Mbt

open Lib Vo

/-- One use of a tree: a `bplus_tree_put` call or a question that leaves it as it is. -/
inductive Use (α : Type) where
  | put (call : Put)
  | ask (question : α)

namespace Use

variable {α : Type}

/-- The tree after a use. -/
def apply (t : BplusTree) : Use α → BplusTree
  | .put call => Mbt.put t call
  | .ask _ => t

/-- No call makes the tree too high, and questions meet a condition. -/
def Allowed (condition : BplusTree → α → Prop) (t : BplusTree) : Use α → Prop
  | .put call => (Mbt.put t call).level < BPLUS_MAX_LEVEL
  | .ask question => condition t question

def Answered (answer : BplusTree → α → Prop) (t : BplusTree) : Use α → Prop
  | .put _ => True
  | .ask question => answer t question

instance {condition : BplusTree → α → Prop} [∀ t question, Decidable (condition t question)] (t : BplusTree) :
    ∀ use, Decidable (Allowed condition t use)
  | .put call => inferInstanceAs (Decidable ((Mbt.put t call).level < BPLUS_MAX_LEVEL))
  | .ask question => inferInstanceAs (Decidable (condition t question))

def IsStore (order entries : Nat) (t : BplusTree) : Prop := ∃ keys, HasKeys order entries t keys

theorem answered {condition answer : BplusTree → α → Prop} (memory : Heap)
    (orders : BPLUS_MIN_ORDER ≤ order ∧ order ≤ BPLUS_MAX_ORDER)
    (sizes : 1 ≤ entries ∧ entries ≤ BPLUS_MAX_ENTRIES) {uses : List (Use α)}
    (allowed : Meets apply (Allowed condition) (bplusTreeInit memory order entries) uses)
    (each : ∀ t question, IsStore order entries t → condition t question → answer t question) :
    Meets apply (Answered answer) (bplusTreeInit memory order entries) uses := by
  have none : Meets Mbt.put (fun t call => (Mbt.put t call).level < BPLUS_MAX_LEVEL)
    (bplusTreeInit memory order entries) [] := trivial
  have start : IsStore order entries (bplusTreeInit memory order entries) := ⟨_, run_hasKeys memory orders sizes none⟩
  refine allowed.gives start ?_ ?_
  · intro t use ⟨keys, has⟩ allowed
    cases use with
    | put call => exact ⟨_, has.put call allowed⟩
    | ask question => exact ⟨keys, has⟩
  · intro t use store allowed
    cases use with
    | put call => trivial
    | ask question => exact each t question store allowed

end Use

/-- The range descent of either border and the insert descent reach the same leaf. -/
def SameLeaf (t : BplusTree) (target : Int) : Prop :=
  0 < t.level → ∀ root ∈ t.root, ∃ leaf, t.heap.descend target (t.level + 1) root = some leaf ∧
    ∀ side height border, (t.heap.walkDown side target t.level root height border).1 = leaf

/-- The insert descent to a target meets no zero separator and no key left over behind the
separators that is not above the target. -/
def GuidedTo (t : BplusTree) (target : Int) : Prop := ∀ root ∈ t.root, t.heap.Guided target t.level root

instance (t : BplusTree) (target : Int) : Decidable (GuidedTo t target) :=
  match same : t.root with
  | none => isTrue fun root mem => by simp [same] at mem
  | some root => decidable_of_iff (t.heap.Guided target t.level root) <| by simp [GuidedTo, same]

theorem Use.IsStore.sameLeaf (store : IsStore order entries t) (orders : order ≤ BPLUS_MAX_ORDER)
    (guided : GuidedTo t target) : SameLeaf t target := by
  intro deep root mem
  obtain ⟨keys, same, -, content, stores, -⟩ := store
  rcases stores with ⟨blank, -⟩ | ⟨y, rep, -⟩
  · simp [blank.root] at mem
  · obtain rfl : y.root = root := by simpa [rep.root] using mem
    obtain ⟨leaf, present, covers, found⟩ := rep.descend target
    refine ⟨leaf, found, fun side height border => ?_⟩
    have guides : t.heap.Guided target y.level y.root := rep.level ▸ guided y.root mem
    obtain ⟨reached, holds⟩ := rep.walkDown_covers (same ▸ orders) side rep.valid.root_mem
      (rep.valid.root_covers target) guides height border
    rw [← rep.level] at reached holds
    exact rep.valid.covers_unique reached present holds covers

/-- In every run the two descents reach the same leaf for each target that the insert descent is
guided to. -/
theorem guided_sameLeaf (memory : Heap) (order entries : Nat)
    (orders : BPLUS_MIN_ORDER ≤ order ∧ order < BPLUS_MAX_ORDER) (sizes : 1 ≤ entries ∧ entries ≤ BPLUS_MAX_ENTRIES)
    (uses : List (Use Int)) (guided : Meets Use.apply (Use.Allowed GuidedTo) (bplusTreeInit memory order entries)
      uses) :
    Meets Use.apply (Use.Answered SameLeaf) (bplusTreeInit memory order entries) uses :=
  Use.answered memory ⟨orders.1, orders.2.le⟩ sizes guided fun _ _ store guides => store.sameLeaf orders.2.le guides

def inserts (keys : List Int) : List Put := keys.map fun key => ⟨key, ['a'], ⟨0, 0, 1⟩⟩

theorem guided_sameLeaf_splits : Meets Use.apply (Use.Answered SameLeaf) (bplusTreeInit Heap.zeroed 3 2)
      ((inserts [5, 3, 8, 1, 9, 2, 7, 6]).map .put ++ [.ask 4, .ask 9]) :=
  guided_sameLeaf Heap.zeroed 3 2 (by decide) (by decide) _ (by decide +kernel)

/-- Insertions whose splits leave keys behind the separators of the root. -/
def leftovers : List Put := inserts [35, 25, 34, 37, 32, 29, 36, 30, 22, 39, 8, 17, 40]

/-- A zero separator stops the range descent early, and left-over keys lead it astray. -/
theorem descents_part : ¬ SameLeaf (run put (bplusTreeInit Heap.zeroed 3 2) (inserts [-1, 0, 1])) 1 ∧
      ¬ SameLeaf (run put (bplusTreeInit Heap.zeroed 7 2) leftovers) 40 := by
  constructor
  · intro same
    obtain ⟨leaf, found, reached⟩ := same (by decide +kernel) 2 (by decide +kernel)
    have insert : leaf = 1 := Option.some.inj (found.symm.trans (by decide +kernel))
    have range := reached (fun _ _ => ⟨0, 0, []⟩) 0 fun _ => ⟨0, 0, []⟩
    rw [insert] at range
    exact absurd range (by decide +kernel)
  · intro same
    obtain ⟨leaf, found, reached⟩ := same (by decide +kernel) 10 (by decide +kernel)
    have insert : leaf = 11 := Option.some.inj (found.symm.trans (by decide +kernel))
    have range := reached (fun _ _ => ⟨0, 0, []⟩) 0 fun _ => ⟨0, 0, []⟩
    rw [insert] at range
    exact absurd range (by decide +kernel)

def BplusTree.between (t : BplusTree) (range : Int × Int) : List (Int × ItemPointerData) :=
  t.entriesInOrder.filter fun entry => min range.1 range.2 ≤ entry.1 ∧ entry.1 ≤ max range.1 range.2

/-- The query ends at a leaf and returns the heap addresses and keys between the bounds, each once
and in ascending order. -/
def RangeAnswered (t : BplusTree) (range : Int × Int) : Prop :=
  ((t.between range).map Prod.fst).Pairwise (· < ·) ∧ ∀ vo, ∃ vo', bplusTreeGetRangeDiskVo t range.1 range.2 vo =
    some (vo', (t.between range).map Prod.snd, (t.between range).map Prod.fst)

def RangeGuided (t : BplusTree) (range : Int × Int) : Prop :=
  GuidedTo t (min range.1 range.2) ∧ GuidedTo t (max range.1 range.2)

instance (t : BplusTree) (range : Int × Int) : Decidable (RangeGuided t range) := inferInstanceAs (Decidable (_ ∧ _))

/-- There is an inner node, a key above the range, and the bounds are in order if anything is
between them. -/
@[mk_iff]
structure RangeAnswerable (t : BplusTree) (range : Int × Int) : Prop where
  guided : RangeGuided t range
  deep : 0 < t.level
  beyond : ∃ entry ∈ t.entriesInOrder, max range.1 range.2 < entry.1
  ordered : range.1 ≤ range.2 ∨ t.between range = []

instance (t : BplusTree) (range : Int × Int) : Decidable (RangeAnswerable t range) :=
  decidable_of_iff _ (rangeAnswerable_iff t range).symm

/-- The loop compares keys with the bounds as they are given, so reversed bounds let nothing through. -/
theorem given_reversed {range : Int × Int} (t : BplusTree) (reversed : range.2 < range.1) :
    (t.entriesInOrder.filter fun entry => range.1 ≤ entry.1 ∧ entry.1 ≤ range.2) = [] := by
  grind [List.filter_eq_nil_iff]

theorem given_eq_between (t : BplusTree) (ordered : range.1 ≤ range.2 ∨ t.between range = []) :
    (t.entriesInOrder.filter fun entry => range.1 ≤ entry.1 ∧ entry.1 ≤ range.2) = t.between range := by
  grind [le_or_gt, BplusTree.between, given_reversed]

theorem bplusTreeGetRangeDiskVo_flat (flat : ¬ 0 < t.level) (key1 key2 : Int) (vo : Rangevo) :
    bplusTreeGetRangeDiskVo t key1 key2 vo = none := by
  grind [bplusTreeGetRangeDiskVo]

theorem Use.IsStore.rangeAnswered_iff (store : IsStore order entries t) (orders : order ≤ BPLUS_MAX_ORDER)
    (sizes : entries ≤ BPLUS_MAX_ENTRIES) (guided : RangeGuided t range) :
    RangeAnswered t range ↔ RangeAnswerable t range := by
  obtain ⟨keys, sameOrder, sameEntries, content, stores, -⟩ := store
  have vo : Rangevo := ⟨0, fun _ => ⟨0, 0, []⟩, fun _ => ⟨0, 0, []⟩, []⟩
  by_cases deep : 0 < t.level
  · rcases stores with ⟨blank, -⟩ | ⟨y, rep, -⟩
    · exact absurd blank.level deep.ne'
    · have guides : t.heap.Guided (min range.1 range.2) y.level y.root := rep.level ▸ guided.1 y.root rep.root
      have answer := rep.range_answer (sameOrder ▸ orders) (sameEntries ▸ sizes) deep range.1 range.2 guides
      have sorted : ((t.between range).map Prod.fst).Pairwise (· < ·) := by
        have all : (t.entriesInOrder.map Prod.fst).Pairwise (· < ·) :=
          rep.entriesInOrder_keys ▸ rep.valid.leafKeys_sorted
        exact all.sublist (List.filter_sublist.map Prod.fst)
      by_cases beyond : ∃ entry ∈ t.entriesInOrder, max range.1 range.2 < entry.1
      · simp only [if_pos beyond] at answer
        constructor
        · intro ⟨_, answered⟩
          obtain ⟨vo', found⟩ := answered vo
          obtain ⟨vo'', actual⟩ := answer vo
          constructor <;> grind [given_reversed, List.map_eq_nil_iff]
        · intro answerable
          refine ⟨sorted, fun vo => ?_⟩
          rw [← given_eq_between t answerable.ordered]
          exact answer vo
      · simp only [if_neg beyond] at answer
        constructor
        · intro ⟨_, answered⟩
          obtain ⟨vo', found⟩ := answered vo
          rw [answer vo] at found
          cases found
        · exact fun answerable => absurd answerable.beyond beyond
  · constructor
    · intro ⟨_, answered⟩
      obtain ⟨vo', found⟩ := answered vo
      rw [bplusTreeGetRangeDiskVo_flat deep] at found
      cases found
    · exact fun answerable => absurd answerable.deep deep

/-- Fresh memory of an object. -/
def blankVo : Rangevo := ⟨0, fun _ => ⟨0, 0, []⟩, fun _ => ⟨0, 0, []⟩, []⟩

theorem RangeAnswered.keys (answered : RangeAnswered t range) :
    (bplusTreeGetRangeDiskVo t range.1 range.2 blankVo).map (fun answer => answer.2.2) =
      some ((t.between range).map Prod.fst) := by
  obtain ⟨vo', found⟩ := answered.2 blankVo
  rw [found, Option.map_some]

end BlockchainPG.Mbt
