import BlockchainPG.Mbt.Grow

/-! Insertion of one entry leaves the tree laid out with the new key in it. -/

namespace BlockchainPG.Mbt

open Lib Function List

section Leaf

variable {t : BplusTree} {y : Shape} {leaf : Addr} {key : Int} {p : Nat}

def keysWith (keys : List Int) (p : Nat) (key : Int) : List Int := keys.take p ++ key :: keys.drop p

theorem keysWith_length {keys : List Int} (inside : p ≤ keys.length) :
    (keysWith keys p key).length = keys.length + 1 := by
  grind [keysWith]

theorem mem_keysWith {keys : List Int} {other : Int} : other ∈ keysWith keys p key ↔ other = key ∨ other ∈ keys := by
  grind [take_append_drop, keysWith]

theorem keysWith_within (valid : y.Valid) (mem : leaf ∈ y.nodes 0) (covers : y.Covers leaf key)
    (place : PlaceOf (y.keys leaf) key p) (absent : key ∉ y.keys leaf) :
    WithinLeaf (y.lo leaf) (keysWith (y.keys leaf) p key) (y.hi leaf) := by
  obtain ⟨sorted, within⟩ := valid.leaf mem
  refine ⟨place.insert_sorted sorted absent, fun other present => ?_⟩
  rcases mem_keysWith.mp present with rfl | present
  · exact covers
  · exact within other present

theorem Heap.Holds.keysWith {h : Heap} {children : List Addr} {keys : List Int}
    (holds : h.Holds 0 leaf children keys) (inside : p ≤ keys.length) :
    slots (insertAt (h.key leaf) p key) (h.count leaf + 1) = keysWith keys p key := by
  rw [slots_insertAt (holds.leafCount ▸ inside), holds.2]
  rfl

theorem leafSimpleInsert_rep (rep : Rep t y) (mem : leaf ∈ y.nodes 0) (covers : y.Covers leaf key)
    (place : PlaceOf (y.keys leaf) key p) (absent : key ∉ y.keys leaf) (room : t.heap.count leaf ≠ t.entries)
    (data : CString) (tid : ItemPointerData) : Rep { t with heap := t.heap.leafSimpleInsert leaf key data tid p }
      (y.setKeys leaf (keysWith (y.keys leaf) p key)) := by
  obtain ⟨holds, least, most, half⟩ := rep.lies 0 leaf mem id
  have count := holds.leafCount
  obtain ⟨keys, strings, cells, keyRow, -, -, -, same⟩ :=
    Heap.leafSimpleInsert_eq key data tid (show p ≤ t.heap.count leaf from count ▸ place.inside)
  let h' := t.heap.leafSimpleInsert leaf key data tid p
  have touches : Heap.Touches (· = leaf) (fun _ => False) (t.heap.withPayload h') h' :=
    Heap.leafRows_touches same (fun _ out => update_of_ne out _ _)
      (fun _ out => update_of_ne out _ _)
  have counts : h'.count leaf = t.heap.count leaf + 1 :=
    (congrFun (congrArg Heap.count same) leaf).trans (update_self ..)
  have rows : h'.key leaf = keys := (congrFun (congrArg Heap.key same) leaf).trans (update_self ..)
  have within := keysWith_within rep.valid mem covers place absent
  have rest := (rep.weaken (· = leaf) fun _ => False.elim).setKeys mem rfl within
  have touched := (rest.withPayload h').touches touches (fun _ _ _ => id) (fun _ _ _ _ _ _ => id) id
  have own : (y.setKeys leaf (keysWith (y.keys leaf) p key)).keys leaf = keysWith (y.keys leaf) p key :=
    update_self ..
  have length : (keysWith (y.keys leaf) p key).length = (y.keys leaf).length + 1 := keysWith_length place.inside
  refine touched.finish (k := 0) mem ⟨⟨?_, ?_⟩, ?_⟩
  · exact (congrFun touches.type leaf).trans holds.1
  · grind [Heap.Holds.keysWith, PlaceOf.inside, slots_congr]
  · rw [own]
    exact ⟨by omega, by simp only; omega, fun bound => by have := half bound; simp only; omega⟩

def leafPair (first second : Addr) (keys : List Int) (cut : Nat) (key : Int) : Pair Addr Int where
  parent := first
  left := []
  right := []
  lower := []
  upper := []
  first := first
  second := second
  firstKids := []
  secondKids := []
  firstKeys := keys.take cut
  secondKeys := keys.drop cut
  cut := key

section Halves

variable {h' : Heap} {links : Links Link} {first second sibling : Addr} (rep : Rep t y)
  (mem : leaf ∈ y.nodes 0) (covers : y.Covers leaf key) (place : PlaceOf (y.keys leaf) key p)
  (absent : key ∉ y.keys leaf) (full : t.heap.count leaf = t.entries)
  (halves : Heap.LeafHalves { t.heap with links := links } h' leaf sibling first second (t.heap.count leaf)
    ((t.heap.count leaf + 1) / 2) (insertAt (t.heap.key leaf) p key))
  (rings : Rings links (replaceNode y.nodes 0 leaf [first, second]))
  (ends : (first = leaf ∧ second = sibling) ∨ (second = leaf ∧ first = sibling))
  (fresh : ∀ j, sibling ∉ y.nodes j) (known : sibling < t.heap.next)
  (orphan : t.heap.parent sibling = none) (type : t.heap.type sibling = BPLUS_TREE_LEAF)

include rep mem covers place absent full halves rings ends fresh known orphan type

theorem leafHalves_halved : let keys := keysWith (y.keys leaf) p key
    let pair := leafPair first second keys ((t.heap.count leaf + 1) / 2) (h'.key second 0)
    Halved { t with heap := h' } (y.setKeys leaf keys) 0 pair leaf ∧ Orphaned { t with heap := h' } pair leaf := by
  intro keys pair
  obtain ⟨holds, least, most, -⟩ := rep.lies 0 leaf mem id
  have count := holds.leafCount
  have row : slots (insertAt (t.heap.key leaf) p key) (t.heap.count leaf + 1) = keys := holds.keysWith place.inside
  have length : keys.length = t.heap.count leaf + 1 := by rw [← row, slots_length]
  generalize insertAt (t.heap.key leaf) p key = array at *
  have touches := halves.touches
  have within : WithinLeaf (y.lo leaf) keys (y.hi leaf) := keysWith_within rep.valid mem covers place absent
  have own : leaf ≠ sibling := ne_of_mem_of_not_mem mem (fresh 0)
  have types : h'.type = t.heap.type := touches.type
  have bothLeaves : h'.type first = BPLUS_TREE_LEAF ∧ h'.type second = BPLUS_TREE_LEAF := by
    rw [types]
    rcases ends with ⟨rfl, rfl⟩ | ⟨rfl, rfl⟩
    · exact ⟨holds.1, type⟩
    · exact ⟨type, holds.1⟩
  refine ⟨⟨⟨mem, ?_, ?_, ?_, ?_, ⟨bothLeaves.1, ?_⟩, ⟨bothLeaves.2, ?_⟩, ?_, ?_, ?_⟩, ?_⟩, ?_⟩
  · exact (update_self ..).trans (take_append_drop _ keys).symm
  · exact fun inner => absurd inner (lt_irrefl 0)
  · refine ⟨?_, ?_, ?_, fun _ => ⟨?_, ?_⟩, fun inner => absurd inner (lt_irrefl 0)⟩
    · rcases ends with ⟨rfl, rfl⟩ | ⟨rfl, rfl⟩
      · exact own
      · exact Ne.symm own
    · rcases ends with ⟨rfl, rfl⟩ | ⟨rfl, rfl⟩
      · exact Or.inl rfl
      · exact Or.inr fresh
    · rcases ends with ⟨rfl, rfl⟩ | ⟨rfl, rfl⟩
      · exact Or.inr fresh
      · exact Or.inl rfl
    · grind [leafPair, length_take]
    · grind [leafPair, head?_drop, slots_getElem?, Heap.LeafHalves.secondKeys]
  · rcases ends with ⟨rfl, rfl⟩ | ⟨rfl, rfl⟩
    · exact Or.inl rfl
    · exact Or.inr rfl
  · simp only [pair, leafPair]
    rw [halves.firstCount, ← row, slots_take _ (by omega)]
    exact slots_congr halves.firstKeys
  · simp only [pair, leafPair]
    rw [halves.secondCount, ← row, slots_drop]
    exact slots_congr halves.secondKeys
  · simp only [pair, leafPair, Sized, length_take]
    omega
  · simp only [pair, leafPair, Sized, length_drop]
    omega
  · have next : h'.next = t.heap.next := touches.next
    have before := rep.fresh 0 leaf mem
    grind [leafPair]
  · have rest := ((rep.weaken (· = leaf) fun _ => False.elim).setKeys mem rfl within).relink rings
    refine (rest.withPayload h').touches touches ?_ (fun _ _ _ _ _ _ => id) id
    rintro j a present (rfl | rfl)
    · rfl
    · exact absurd present (fresh j)
  · have kept : h'.parent sibling = none := (touches.parent sibling id).trans orphan
    rcases ends with ⟨rfl, rfl⟩ | ⟨rfl, rfl⟩
    · exact Or.inl ⟨rfl, kept⟩
    · exact Or.inr ⟨rfl, kept⟩

theorem leafHalves_succeeds : Succeeds (replaceNode y.nodes 0 leaf [first, second] 0)
      (y.setKeys leaf (keysWith (y.keys leaf) p key)).leafKeys { t with heap := h' }
      (parentNodeBuild (nonLeafInsert (t.level + 1)) { t with heap := h' } first second (h'.key second 0)) := by
  obtain ⟨halved, orphaned⟩ := leafHalves_halved rep mem covers place absent full halves rings ends fresh known
    orphan type
  refine parentNodeBuild_spec halved orphaned fun t' y' parent left right lower upper same waiting => ?_
  refine nonLeafInsert_spec waiting ?_
  have level : y'.level = t.level := same.trans rep.level.symm
  omega

end Halves

def leafStore (t : BplusTree) (leaf : Addr) (key : Int) (data : CString) (tid : ItemPointerData) (p : Nat) : Heap :=
  if t.heap.count leaf = t.entries then
    if p < (t.entries + 1) / 2 then t.heap.leafNew.2.leafSplitLeft leaf t.heap.leafNew.1 key data tid p
    else t.heap.leafNew.2.leafSplitRight leaf t.heap.leafNew.1 key data tid p
  else t.heap.leafSimpleInsert leaf key data tid p

def leafRun (t : BplusTree) (leaf : Addr) (p : Nat) : List Addr :=
  if t.heap.count leaf = t.entries then
    if p < (t.entries + 1) / 2 then [t.heap.leafNew.1, leaf] else [leaf, t.heap.leafNew.1]
  else [leaf]

theorem leafInsert_present (rep : Rep t y) (mem : leaf ∈ y.nodes 0) (present : key ∈ y.keys leaf)
    (data : CString) (tid : ItemPointerData) : leafInsert t leaf key data tid = (-1, t) := by
  obtain ⟨⟨-, row⟩, -⟩ := rep.lies 0 leaf mem id
  have sorted := (rep.valid.leaf mem).1
  obtain ⟨p, -, result⟩ := keyBinarySearch_spec (row ▸ sorted) key
  grind [leafInsert]

theorem leafInsert_absent (rep : Rep t y) (mem : leaf ∈ y.nodes 0) (covers : y.Covers leaf key)
    (place : PlaceOf (y.keys leaf) key p) (absent : key ∉ y.keys leaf) (data : CString) (tid : ItemPointerData) :
    Succeeds (replaceNode y.nodes 0 leaf (leafRun t leaf p) 0)
      (y.setKeys leaf (keysWith (y.keys leaf) p key)).leafKeys
      { t with heap := leafStore t leaf key data tid p } (leafInsert t leaf key data tid) := by
  have valid := rep.valid
  obtain ⟨holds, least, -, -⟩ := rep.lies 0 leaf mem id
  have row := holds.2
  have count := holds.leafCount
  have inside := place.inside
  obtain ⟨q, other, result⟩ := keyBinarySearch_spec (row ▸ (valid.leaf mem).1) key
  rw [row] at other result
  obtain rfl := other.unique place
  rw [if_neg absent] at result
  have negative : ¬(-(q : Int) - 1 ≥ 0) := by omega
  have insert : (-(-(q : Int) - 1) - 1).toNat = q := by omega
  simp only [leafInsert, leafStore, leafRun, result, negative, ↓reduceIte, insert]
  by_cases full : t.heap.count leaf = t.entries
  · simp only [full, ↓reduceIte]
    have allocates := Heap.leafNew_allocates t.heap
    have fresh : ∀ j, t.heap.leafNew.1 ∉ y.nodes j := allocates.address ▸ rep.outside
    have allocated := rep.allocates allocates fresh
    have other : t.heap.leafNew.1 ≠ leaf := (ne_of_mem_of_not_mem mem (fresh 0)).symm
    have kept : t.heap.leafNew.2.count leaf = t.entries := (allocates.count leaf other.symm).trans full
    have type : t.heap.leafNew.2.type t.heap.leafNew.1 = BPLUS_TREE_LEAF := by simp [Heap.leafNew]
    have known : t.heap.leafNew.1 < t.heap.leafNew.2.next := by
      rw [allocates.address, allocates.next]
      exact Nat.lt_succ_self _
    have small : 0 < BPLUS_MAX_LEVEL := by decide
    by_cases early : q < (t.entries + 1) / 2
    · simp only [early, ↓reduceIte]
      have halves := (Heap.leafSplitLeft_halves key data tid other (by rw [kept]; omega) (by rwa [kept])).1
      have done := leafHalves_succeeds allocated mem covers place absent kept halves
        (allocated.rings.addBefore valid.apart small (valid.nodup 0) mem fresh) (Or.inr ⟨rfl, rfl⟩) fresh known
        allocates.newParent type
      exact done
    · simp only [early, ↓reduceIte]
      have halves := (Heap.leafSplitRight_halves key data tid other (not_lt.mp (kept ▸ early)) (by omega)).1
      have done := leafHalves_succeeds allocated mem covers place absent kept halves
        (allocated.rings.addAfter valid.apart small (valid.nodup 0) mem fresh) (Or.inl ⟨rfl, rfl⟩) fresh known
        allocates.newParent type
      exact done
  · simp only [full, ↓reduceIte]
    rw [replaceNode_self]
    exact ⟨rfl, fun _ => ⟨⟨_, leafSimpleInsert_rep rep mem covers place absent full data tid, rfl, rfl⟩,
      LeavesKept.refl ..⟩⟩

end Leaf

end BlockchainPG.Mbt
