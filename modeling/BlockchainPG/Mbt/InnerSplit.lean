import BlockchainPG.Mbt.Footprint

/-! The stores made when a child of an inner node was split in two. -/

namespace BlockchainPG.Mbt

open Lib Function

/-- The children of a node once `lCh` and `rCh` stand in the place of one slot. -/
def withKids (row : Nat → Addr) (insert : Nat) (lCh rCh : Addr) : Nat → Addr := fun i =>
  if i < insert then row i else if i = insert then lCh else if i = insert + 1 then rCh else row (i - 1)

section Rows

variable {kids : Nat → Addr} {lCh rCh : Addr} {insert i : Nat}

theorem withKids_of_lt (less : i < insert) : withKids kids insert lCh rCh i = kids i := if_pos less

theorem withKids_left : withKids kids insert lCh rCh insert = lCh := by simp [withKids]

theorem withKids_right : withKids kids insert lCh rCh (insert + 1) = rCh := by simp [withKids]

theorem withKids_of_gt (more : insert + 1 < i) : withKids kids insert lCh rCh i = kids (i - 1) := by
  grind [withKids]

theorem slots_withKids {left right : List Addr} (row : slots kids n = left ++ old :: right) :
    slots (withKids kids left.length lCh rCh) (n + 1) = left ++ [lCh, rCh] ++ right := by
  have same : withKids kids left.length lCh rCh = insertAt (update kids left.length rCh) left.length lCh := by
    grind [withKids, insertAt]
  grind [slots_length, slots_insertAt, slots_update]

end Rows

namespace Heap

variable {h : Heap} {node sibling lCh rCh : Addr} {insert : Nat}

/-- A node one of whose children was split: the other children know it. -/
structure Receives (h : Heap) (node lCh rCh : Addr) (insert : Nat) : Prop where
  inside : insert < h.count node
  distinct : ∀ i ≤ h.count node, ∀ j ≤ h.count node,
    withKids (h.subPtr node) insert lCh rCh i = withKids (h.subPtr node) insert lCh rCh j → i = j
  parents : ∀ i < h.count node, i ≠ insert →
    h.parent (h.subPtr node i) = some node ∧ h.parentKeyIdx (h.subPtr node i) = i - 1
  old : h.subPtr node insert = lCh ∨ h.subPtr node insert = rCh
  left : h.parent lCh = some node
  right : h.parent rCh = some node

/-- The two halves of a split node. -/
structure Halves (h h' : Heap) (node sibling first second : Addr) (n cut : Nat) (kid : Nat → Addr)
    (key : Nat → Int) : Prop where
  touches : Touches (fun a => a = node ∨ a = sibling) (fun child => ∃ i ≤ n, kid i = child) h h'
  first : h'.Filled first cut kid key
  second : h'.Filled second (n + 1 - cut) (fun i => kid (cut + i)) fun i => key (cut + i)

theorem replicateKids_spec (ne : sibling ≠ node) (early : insert < split) (most : split ≤ n)
    (distinct : ∀ i ≤ n, ∀ j ≤ n,
      withKids (h.subPtr node) insert lCh rCh i = withKids (h.subPtr node) insert lCh rCh j → i = j) :
    Touches (· = sibling) (fun child => ∃ i ≤ n, withKids (h.subPtr node) insert lCh rCh i = child) h
        (h.replicateKids node sibling lCh rCh insert split) ∧
      (h.replicateKids node sibling lCh rCh insert split).Adopted sibling (split + 1)
        (withKids (h.subPtr node) insert lCh rCh) := by
  generalize same : withKids (h.subPtr node) insert lCh rCh = kid at distinct ⊢
  have apart : ∀ j ≤ n, ∀ i < j, kid i ≠ kid j := fun j small i less equal => by
    have := distinct i (by omega) j small equal
    omega
  let body := fun i (state : Nat × Heap) =>
    if state.1 = insert then
      (state.1 + 2, (state.2.adopt sibling state.1 lCh).adopt sibling (state.1 + 1) rCh)
    else (state.1 + 1, state.2.adopt sibling state.1 (state.2.subPtr node i))
  -- after `i` rounds the new children take one slot more if they were met
  let motive := fun i (state : Nat × Heap) => state.1 = i + (if insert < i then 1 else 0) ∧
    Touches (· = sibling) (fun child => ∃ i ≤ n, kid i = child) h state.2 ∧ state.2.Adopted sibling state.1 kid
  have run : motive split (forUp 0 split body (0, h)) := by
    have start : motive 0 (0, h) := ⟨by simp, Touches.refl _ _ _, by simp [Adopted]⟩
    refine forUp_invariant (Nat.zero_le split) start ?_
    rintro i ⟨j, g⟩ - less ⟨slot, touches, adopted⟩
    simp only at slot touches adopted
    by_cases here : j = insert
    · have met : i = insert := by
        split at slot <;> omega
      have first : kid j = lCh := by rw [← same, here, withKids_left]
      have second : kid (j + 1) = rCh := by rw [← same, here, withKids_right]
      simp only [body, here, ↓reduceIte]
      rw [← here, ← first, ← second]
      refine ⟨by rw [if_pos (by omega)]; omega, ?_, ?_⟩
      · exact (touches.adopt rfl ⟨j, by omega, rfl⟩ j).adopt rfl ⟨j + 1, by omega, rfl⟩ (j + 1)
      · grind [Adopted.adopt]
    · have source : g.subPtr node i = kid j := by
        rw [touches.subPtr node ne.symm, ← same]
        split at slot
        · rw [withKids_of_gt (by omega)]
          congr 1
          omega
        · rw [withKids_of_lt (by omega)]
          congr 1
          omega
      grind [Touches.adopt, Adopted.adopt]
  obtain ⟨slot, touches, adopted⟩ := run
  rw [if_pos early] at slot
  rw [slot] at adopted
  exact ⟨touches, adopted⟩

theorem shiftDown_spec {kid : Nat → Addr} (split n : Nat) (pos : 0 < split) (start : h.Adopted node 1 kid)
    (later : ∀ i, 0 < i → i ≤ n → kid i = h.subPtr node (split + i - 1))
    (distinct : ∀ i ≤ n, ∀ j ≤ n, kid i = kid j → i = j) : let h' := forUp 0 n (fun j h =>
      (h.setKey node j (h.key node (split - 1 + j))).adopt node (j + 1) (h.subPtr node (split + j))) h
    Touches (· = node) (fun child => ∃ i ≤ n, kid i = child) h h' ∧ h'.Adopted node (n + 1) kid ∧
      (∀ i < n, h'.key node i = h.key node (split - 1 + i)) ∧ ∀ i, n < i → h'.subPtr node i = h.subPtr node i := by
  intro h'
  let motive := fun j (g : Heap) =>
    Touches (· = node) (fun child => ∃ i ≤ n, kid i = child) h g ∧ g.Adopted node (j + 1) kid ∧
      (∀ i < j, g.key node i = h.key node (split - 1 + i)) ∧
      (∀ i, j ≤ i → g.key node i = h.key node i) ∧ ∀ i, j < i → g.subPtr node i = h.subPtr node i
  suffices run : motive n h' from ⟨run.1, run.2.1, run.2.2.1, run.2.2.2.2⟩
  have first : motive 0 h := ⟨Touches.refl _ _ _, start, by simp, by simp, by simp⟩
  refine forUp_invariant (Nat.zero_le n) first ?_
  rintro j g - less ⟨touches, adopted, moved, keys, kids⟩
  have source : g.subPtr node (split + j) = kid (j + 1) := by
    grind
  rw [source]
  refine ⟨?_, ?_, ?_, ?_, ?_⟩
  · exact (touches.setKey rfl _ _).adopt rfl ⟨j + 1, by omega, rfl⟩ _
  · refine Adopted.adopt (n := j + 1) (fun i inside => adopted i inside) ?_
    grind
  · intro i inside
    by_cases last : i = j
    · subst last
      simp [adopt, setKey, keys (split - 1 + i) (by omega)]
    · simp [adopt, setKey, last, moved i (by omega)]
  · intro i more
    have other : i ≠ j := by omega
    simp [adopt, setKey, other, keys i (by omega)]
  · intro i more
    have other : i ≠ j + 1 := by omega
    simp [adopt, setKey, other, kids i (by omega)]

section

variable (receives : h.Receives node lCh rCh insert) (ne : sibling ≠ node)
include receives ne

theorem splitLeftFront_spec (early : insert < split) (most : split ≤ h.count node) (key : Int) :
    let kid := withKids (h.subPtr node) insert lCh rCh
    let h' := h.splitLeftFront node sibling lCh rCh key insert split
    Touches (fun a => a = node ∨ a = sibling) (fun child => ∃ i ≤ h.count node, kid i = child) h h' ∧
      h'.Filled sibling split kid (insertAt (h.key node) insert key) ∧
      h'.Adopted node 1 (fun i => kid (split + i)) ∧ h'.key node = h.key node ∧
      ∀ i, 0 < i → h'.subPtr node i = h.subPtr node i := by
  intro kid h'
  have distinct := receives.distinct
  obtain ⟨touches, adopted⟩ := replicateKids_spec ne early most distinct
  have apart : ∀ i < split, kid i ≠ kid split := fun i less equal => by
    have := distinct i (by omega) split most equal
    omega
  let g := (h.replicateKids node sibling lCh rCh insert split).setCount sibling split
  let keys := copyGap (g.key node) (some key) (split - 1) insert split 0 0 (g.key sibling)
  let g' := { g with key := update g.key sibling keys.2 }
  have before : Touches (fun a => a = node ∨ a = sibling)
      (fun child => ∃ i ≤ h.count node, kid i = child) h g' :=
    ((touches.weaken (fun _ => Or.inr) (fun _ => id)).setCount (Or.inr rfl) _).keyRow (Or.inr rfl) _
  have nodeKids : g'.subPtr node = h.subPtr node := touches.subPtr node ne.symm
  have row : g.key node = h.key node := touches.key node ne.symm
  have nodeKeys : g'.key node = h.key node := by
    simp only [g', update_of_ne ne.symm, row]
  have copied : keys.1 = (if insert < split - 1 then split else split - 1) ∧
      ∀ i, i + 1 < split → keys.2 i = insertAt (h.key node) insert key i := by
    obtain ⟨stop, slots⟩ := copyGap_apply (g.key node) (some key) insert (g.key sibling)
      (Nat.zero_le (split - 1))
    grind [insertAt]
  -- both branches end with the first child of `node`
  suffices branch : ∃ f : Heap, Touches (fun a => a = node ∨ a = sibling)
      (fun child => ∃ i ≤ h.count node, kid i = child) h f ∧ f.subPtr node = h.subPtr node ∧
      f.key node = h.key node ∧ f.Filled sibling split kid (insertAt (h.key node) insert key) ∧
      h' = f.adopt node 0 (kid split) by
    obtain ⟨f, touched, nodeKids, nodeKeys, filled, result⟩ := branch
    have own : Touches (· = node) (· = kid split) f (f.adopt node 0 (kid split)) :=
      (Touches.refl f (· = node) (· = kid split)).adopt rfl rfl 0
    rw [result]
    refine ⟨touched.adopt (Or.inl rfl) ⟨split, most, rfl⟩ 0, filled.touches own ne apart, ?_, nodeKeys, ?_⟩
    · intro i inside
      obtain rfl : i = 0 := by omega
      simp [adopt]
    · intro i pos
      have other : i ≠ 0 := by omega
      simp [adopt, other, nodeKids]
  have filled : (∀ i, i + 1 < split → g'.key sibling i = insertAt (h.key node) insert key i) ∧
      g'.count sibling = split ∧ g'.Adopted sibling (split + 1) kid := by
    refine ⟨fun i inside => ?_, update_self .., adopted⟩
    rw [show g'.key sibling = keys.2 from update_self ..]
    exact copied.2 i inside
  obtain ⟨siblingKeys, siblingCount, siblingKids⟩ := filled
  by_cases last : insert = split - 1
  · have first : kid insert = lCh := by simp [kid, withKids]
    have second : kid split = rCh := by simp [kid, withKids, show split = insert + 1 by omega]
    let f := (g'.setKey sibling insert key).adopt sibling insert (kid insert)
    refine ⟨f, (before.setKey (Or.inr rfl) _ _).adopt (Or.inr rfl) ⟨insert, by omega, rfl⟩ _, ?_, ?_, ?_, ?_⟩
    · simp [f, adopt, setKey, Ne.symm ne, nodeKids]
    · simp [f, adopt, setKey, Ne.symm ne, nodeKeys]
    · have others : ∀ i < split, i ≠ insert → kid i ≠ kid insert := fun i inside ne equal =>
        ne (distinct i (by omega) insert (by omega) equal)
      refine ⟨siblingCount, fun i inside => ?_, fun i inside => ?_, fun i inside => ?_⟩
      · by_cases here : i = insert
        · simp [f, adopt, here]
        · simp [f, adopt, setKey, here, (siblingKids i (by omega)).1]
      · simp [f, adopt, setKey, show i ≠ insert by omega, siblingKeys i inside]
      · by_cases here : i = insert
        · simp [f, adopt, here]
        · simp [f, adopt, setKey, others i inside here, (siblingKids i (by omega)).2]
    · have stop : (keys.1 : Int) = insert := by
        rw [copied.1, if_neg (by omega), last]
      have again : f = { f with parentKeyIdx := update f.parentKeyIdx lCh (keys.1 - 1) } := by
        simp [f, adopt, first, stop]
      rw [second, again]
      simp only [f, first]
      exact if_pos last
  · have source : g'.subPtr node (split - 1) = kid split := by
      rw [nodeKids]
      exact (withKids_of_gt (by omega)).symm
    refine ⟨g', before, nodeKids, nodeKeys, ?_, ?_⟩
    · exact ⟨siblingCount, fun i inside => (siblingKids i (by omega)).1, siblingKeys,
        fun i inside => (siblingKids i (by omega)).2⟩
    · rw [← source]
      exact if_neg last

theorem nonLeafSplitLeft_spec (early : insert < (h.count node + 1) / 2) (key : Int) :
    let cut := (h.count node + 1) / 2
    let result := h.nonLeafSplitLeft node sibling lCh rCh key insert
    Halves { h with links := h.links.addBetween (.node sibling) (h.links.prev (.node node)) (.node node) }
        result.2 node sibling sibling node (h.count node) cut
        (withKids (h.subPtr node) insert lCh rCh) (insertAt (h.key node) insert key) ∧
      result.1 = insertAt (h.key node) insert key (cut - 1) := by
  intro cut result
  have most : cut ≤ h.count node := by omega
  let start : Heap :=
    { h with links := h.links.addBetween (.node sibling) (h.links.prev (.node node)) (.node node) }
  have ready : start.Receives node lCh rCh insert :=
    ⟨receives.inside, receives.distinct, receives.parents, receives.old, receives.left, receives.right⟩
  obtain ⟨touches, filled, adopted, keys, kids⟩ := splitLeftFront_spec ready ne early most key
  generalize kidDef : withKids (h.subPtr node) insert lCh rCh = kid at *
  have upper : ∀ i, insert + 1 < i → kid i = h.subPtr node (i - 1) := by
    intro i more
    rw [← kidDef, withKids_of_gt more]
  let front := start.splitLeftFront node sibling lCh rCh key insert cut
  have distinct : ∀ i ≤ h.count node, ∀ j ≤ h.count node, kid i = kid j → i = j := kidDef ▸ receives.distinct
  obtain ⟨moves, moved, movedKeys, rest⟩ := shiftDown_spec cut (h.count node - cut) (by omega) adopted
    (fun i pos inside => by
      rw [kids _ (by omega)]
      exact (upper (cut + i) (by omega)).trans (by congr 1))
    (fun i small j other equal => by
      have := distinct (cut + i) (by omega) (cut + j) (by omega) equal
      omega)
  let shifted := forUp 0 (h.count node - cut) (fun j h =>
    (h.setKey node j (h.key node (cut - 1 + j))).adopt node (j + 1) (h.subPtr node (cut + j))) front
  -- the last store of the loop is repeated after it
  have repeated : shifted.subPtr node (h.count node - 1) = shifted.subPtr node (h.count node - cut) := by
    by_cases single : cut = 1
    · rw [single]
    · rw [rest _ (by omega), kids _ (by omega), (moved _ (Nat.lt_succ_self _)).1]
      grind
  have same : result.2 = shifted.setCount node (h.count node - cut + 1) := by
    change ({ shifted with subPtr := update shifted.subPtr node (update
      (shifted.subPtr node) (h.count node - cut) (shifted.subPtr node (h.count node - 1))) } : Heap).setCount
      node _ = _
    rw [repeated, update_eq_self, update_eq_self]
  have apart : ∀ i < cut, ¬∃ j ≤ h.count node - cut, kid (cut + j) = kid i := by
    grind
  refine ⟨⟨?_, ?_, ?_⟩, ?_⟩
  · rw [same]
    refine (touches.trans (moves.weaken (fun _ => Or.inl) ?_)).setCount (Or.inl rfl) _
    grind
  · rw [same]
    exact filled.touches (moves.setCount rfl _) ne apart
  · rw [same]
    have size : h.count node - cut + 1 = h.count node + 1 - cut := by omega
    rw [← size]
    refine ⟨update_self .., fun i inside => (moved i inside).1, fun i inside => ?_,
      fun i inside => (moved i inside).2⟩
    change shifted.key node i = _
    grind [insertAt_of_gt]
  · change (if insert = cut - 1 then key else h.key node (cut - 2)) = _
    grind [insertAt_self, insertAt_of_gt]

/-- The node keeps its first children, and what is written behind them is in the sibling. -/
theorem halves_of_upper (h' : Heap) (links : Links Link) (low : cut ≤ insert) (key : Int)
    (moved : Touches (· = sibling) (fun child => ∃ i ≤ h.count node - cut,
      withKids (h.subPtr node) insert lCh rCh (cut + i) = child) ({ h with links := links }.setCount node cut) h')
    (filled : h'.Filled sibling (h.count node + 1 - cut) (fun i => withKids (h.subPtr node) insert lCh rCh (cut + i))
      fun i => insertAt (h.key node) insert key (cut + i)) :
    Halves { h with links := links } h' node sibling node sibling (h.count node) cut
      (withKids (h.subPtr node) insert lCh rCh) (insertAt (h.key node) insert key) := by
  have inside := receives.inside
  have distinct := receives.distinct
  have same : ∀ i < cut, withKids (h.subPtr node) insert lCh rCh i = h.subPtr node i := fun i less =>
    withKids_of_lt (by omega)
  have lower : ({ h with links := links }.setCount node cut).Filled node cut
      (withKids (h.subPtr node) insert lCh rCh) (insertAt (h.key node) insert key) := by
    refine ⟨update_self .., fun i less => (same i less).symm, fun i less => (insertAt_of_lt (by omega) key).symm,
      fun i less => ?_⟩
    rw [same i less]
    exact receives.parents i (by omega) (by omega)
  generalize withKids (h.subPtr node) insert lCh rCh = kid at *
  have whole : Touches (fun a => a = node ∨ a = sibling) (fun child => ∃ i ≤ h.count node, kid i = child)
      { h with links := links } ({ h with links := links }.setCount node cut) :=
    (Touches.refl _ _ _).setCount (Or.inl rfl) cut
  refine ⟨whole.trans (moved.weaken (fun _ => Or.inr) ?_), lower.touches moved ne.symm ?_, filled⟩
  · rintro child ⟨i, small, rfl⟩
    exact ⟨cut + i, by omega, rfl⟩
  · rintro i less ⟨j, small, equal⟩
    have := distinct (cut + j) (by omega) i (by omega) equal
    omega

theorem nonLeafSplitRight1_spec (here : insert = (h.count node + 1) / 2) (key : Int) :
    let cut := (h.count node + 1) / 2
    let result := h.nonLeafSplitRight1 node sibling lCh rCh key
    Halves { h with links := h.links.add (.node sibling) (.node node) }
        result.2 node sibling node sibling (h.count node) cut
        (withKids (h.subPtr node) insert lCh rCh) (insertAt (h.key node) insert key) ∧
      result.1 = insertAt (h.key node) insert key (cut - 1) := by
  intro cut result
  have inside := receives.inside
  have distinct := receives.distinct
  have halves h' := halves_of_upper receives ne h' (h.links.add (.node sibling) (.node node)) here.ge key
  generalize kidDef : withKids (h.subPtr node) insert lCh rCh = kid at *
  generalize keyDef : insertAt (h.key node) insert key = keys at *
  let front := { h with links := h.links.add (.node sibling) (.node node) }.setCount node cut
  let upper := fun child => ∃ i ≤ h.count node - cut, kid (cut + i) = child
  let opened := ((front.setKey sibling 0 key).adopt sibling 0 lCh).adopt sibling 1 rCh
  have first : kid (cut + 0) = lCh := by simp [← kidDef, withKids, here, cut]
  have second : kid (cut + 1) = rCh := by simp [← kidDef, withKids, here, cut]
  let motive := fun j (g : Heap) => Touches (· = sibling) upper front g ∧
    g.Adopted sibling (j + 2) (fun i => kid (cut + i)) ∧ ∀ i < j + 1, g.key sibling i = keys (cut + i)
  have begin : motive 0 opened := by
    refine ⟨?_, ?_, ?_⟩
    · exact (((Touches.refl front (· = sibling) upper).setKey rfl 0 key).adopt rfl ⟨0, by omega, first⟩ 0).adopt
        rfl ⟨1, by omega, second⟩ 1
    · have apart : ∀ i < 1, kid (cut + i) ≠ kid (cut + 1) := fun i less equal => by
        have := distinct (cut + i) (by omega) (cut + 1) (by omega) equal
        omega
      have none : (front.setKey sibling 0 key).Adopted sibling 0 fun i => kid (cut + i) := by simp [Adopted]
      grind [Adopted.adopt]
    · intro i less
      obtain rfl : i = 0 := by omega
      simp [opened, adopt, setKey, ← keyDef, insertAt, here, cut]
  have run : motive (h.count node - 1 - cut) (forUp 0 (h.count node - 1 - cut) (fun j h =>
      (h.setKey sibling (j + 1) (h.key node (cut + j))).adopt sibling (j + 2)
        (h.subPtr node (cut + j + 1))) opened) := by
    refine forUp_invariant (Nat.zero_le _) begin ?_
    rintro j g - less ⟨touches, adopted, copied⟩
    have source : g.subPtr node (cut + j + 1) = kid (cut + (j + 2)) := by
      rw [touches.subPtr node ne.symm, ← kidDef, withKids_of_gt (by omega)]
      rfl
    have sourceKey : g.key node (cut + j) = keys (cut + (j + 1)) := by
      rw [touches.key node ne.symm, ← keyDef, insertAt_of_gt (by omega)]
      rfl
    rw [source, sourceKey]
    refine ⟨(touches.setKey rfl _ _).adopt rfl ⟨j + 2, by omega, rfl⟩ _, ?_, ?_⟩
    · refine Adopted.adopt (n := j + 2) (fun i inside => adopted i inside) ?_
      intro i inside equal
      have := distinct (cut + i) (by omega) (cut + (j + 2)) (by omega) equal
      omega
    · intro i inside
      by_cases last : i = j + 1
      · simp [adopt, setKey, last]
      · simp [adopt, setKey, last, copied i (by omega)]
  obtain ⟨touches, adopted, copied⟩ := run
  have bounded : cut + 1 ≤ h.count node := by omega
  have size : h.count node - 1 - cut + 2 = h.count node + 1 - cut := by omega
  refine ⟨halves _ (touches.setCount rfl _) ?_, ?_⟩
  · rw [← size]
    refine ⟨update_self .., fun i inside => (adopted i inside).1, fun i inside => ?_,
      fun i inside => (adopted i inside).2⟩
    exact copied i (by omega)
  · rw [← keyDef, insertAt_of_lt (by omega)]
    rfl

/-- `non_leaf_split_right2`, where the new children belong to the upper half
behind its first child. -/
theorem nonLeafSplitRight2_spec (late : (h.count node + 1) / 2 < insert) (key : Int) :
    let cut := (h.count node + 1) / 2 + 1
    let result := h.nonLeafSplitRight2 node sibling lCh rCh key insert
    Halves { h with links := h.links.add (.node sibling) (.node node) }
        result.2 node sibling node sibling (h.count node) cut
        (withKids (h.subPtr node) insert lCh rCh) (insertAt (h.key node) insert key) ∧
      result.1 = insertAt (h.key node) insert key (cut - 1) := by
  intro cut result
  have inside := receives.inside
  have distinct := receives.distinct
  have halves h' := halves_of_upper receives ne h' (h.links.add (.node sibling) (.node node))
    (show cut ≤ insert from late) key
  have kidLt : ∀ i < insert, withKids (h.subPtr node) insert lCh rCh i = h.subPtr node i :=
    fun i less => withKids_of_lt less
  have kidGt : ∀ i, insert + 1 < i → withKids (h.subPtr node) insert lCh rCh i = h.subPtr node (i - 1) :=
    fun i more => withKids_of_gt more
  have keyLt : ∀ i < insert, insertAt (h.key node) insert key i = h.key node i := fun i less => insertAt_of_lt less key
  have keyGt : ∀ i, insert < i → insertAt (h.key node) insert key i = h.key node (i - 1) :=
    fun i more => insertAt_of_gt more key
  have kidLeft : withKids (h.subPtr node) insert lCh rCh insert = lCh := withKids_left
  have kidRight : withKids (h.subPtr node) insert lCh rCh (insert + 1) = rCh := withKids_right
  have keySelf : insertAt (h.key node) insert key insert = key := insertAt_self insert key
  generalize withKids (h.subPtr node) insert lCh rCh = kid at *
  generalize insertAt (h.key node) insert key = keys at *
  obtain ⟨hole, rfl⟩ : ∃ hole, insert = cut + hole := ⟨insert - cut, by omega⟩
  let front := { h with links := h.links.add (.node sibling) (.node node) }.setCount node cut
  let upper := fun child => ∃ s ≤ h.count node - cut, kid (cut + s) = child
  have known : ∀ i, cut ≤ i → i < h.count node → ∃ s ≤ h.count node - cut, kid (cut + s) = h.subPtr node i ∧
      (i < cut + hole → cut + s = i) ∧ (i = cut + hole → s = hole ∨ s = hole + 1) ∧
      (cut + hole < i → cut + s = i + 1) := by
    intro i low high
    rcases Nat.lt_trichotomy i (cut + hole) with less | same | more
    · exact ⟨i - cut, by omega, by rw [show cut + (i - cut) = i by omega, kidLt i less], by omega, by omega, by omega⟩
    · subst same
      rcases receives.old with left | right
      · exact ⟨hole, by omega, kidLeft.trans left.symm, by omega, by omega, by omega⟩
      · exact ⟨hole + 1, by omega, kidRight.trans right.symm, by omega, by omega, by omega⟩
    · exact ⟨i + 1 - cut, by omega, by rw [show cut + (i + 1 - cut) = i + 1 by omega, kidGt (i + 1) (by omega)]; rfl,
        by omega, by omega, by omega⟩
  have unlike : ∀ x s, cut + x ≤ h.count node → s ≤ h.count node - cut → x ≠ s → kid (cut + x) ≠ kid (cut + s) := by
    intro x s xSmall sSmall apart equal
    have := distinct (cut + x) xSmall (cut + s) (by omega) equal
    omega
  -- all slots passed so far are right, except those of the new children
  let motive := fun i j (g : Heap) => (j ≤ hole → i = cut + j) ∧ (hole < j → i + 1 = cut + j) ∧
    Touches (· = sibling) upper front g ∧ (∀ x ≤ j, x ≠ hole → x ≠ hole + 1 → g.subPtr sibling x = kid (cut + x) ∧
      g.parent (kid (cut + x)) = some sibling ∧ g.parentKeyIdx (kid (cut + x)) = x - 1) ∧
    ∀ x < j, x ≠ hole → g.key sibling x = keys (cut + x)
  have begin : motive cut 0 (front.adopt sibling 0 (front.subPtr node cut)) := by
    obtain ⟨s, small, same, below, -, -⟩ := known cut (Nat.le_refl cut) (by omega)
    refine ⟨by omega, by omega, (Touches.refl front (· = sibling) upper).adopt rfl ⟨s, small, same⟩ 0, ?_, by omega⟩
    intro x least notLeft notRight
    obtain rfl : x = 0 := by omega
    have first : front.subPtr node cut = kid (cut + 0) := by
      rw [show s = 0 by omega] at same
      exact same.symm
    rw [first]
    simp [adopt]
  let copied := gapLoop (h.count node - 1) hole (fun i j h =>
    (h.setKey sibling j (h.key node i)).adopt sibling (j + 1) (h.subPtr node (i + 1)))
    (h.count node - 1 - (h.count node + 1) / 2) cut 0 (front.adopt sibling 0 (front.subPtr node cut))
  have run : motive (h.count node - 1) copied.1 copied.2 := by
    refine gapLoop_invariant (by omega) (by rw [if_pos (Nat.zero_le hole)]; omega) begin ?_ ?_
    · rintro i g more ⟨before, -, touches, adopted, copied⟩
      refine ⟨by omega, by omega, touches, ?_, ?_⟩
      · exact fun x least notLeft notRight => adopted x (by omega) notLeft notRight
      · exact fun x less notHole => copied x (by omega) notHole
    · rintro i j g more notHole ⟨before, after, touches, adopted, copied⟩
      obtain ⟨s, small, same, below, here, above⟩ := known (i + 1) (by omega) (by omega)
      have source : g.subPtr node (i + 1) = kid (cut + s) :=
        (congrFun (touches.subPtr node ne.symm) (i + 1)).trans same.symm
      have sourceKey : g.key node i = keys (cut + j) := by
        refine (congrFun (touches.key node ne.symm) i).trans ?_
        change h.key node i = keys (cut + j)
        rcases Nat.lt_or_ge j hole with less | more
        · rw [keyLt (cut + j) (by omega), before (by omega)]
        · rw [keyGt (cut + j) (by omega), ← after (by omega)]
          rfl
      rw [source, sourceKey]
      refine ⟨by omega, by omega, (touches.setKey rfl _ _).adopt rfl ⟨s, small, rfl⟩ _, ?_, ?_⟩
      · intro x least notLeft notRight
        by_cases last : x = j + 1
        · obtain rfl : s = x := by omega
          simp [adopt, last]
        · have other := unlike x s (by omega) small (by omega)
          have earlier := adopted x (by omega) notLeft notRight
          simp only [adopt, setKey, update_self, update_of_ne last, update_of_ne other]
          exact earlier
      · intro x less notSlot
        by_cases last : x = j
        · simp [adopt, setKey, last]
        · simp [adopt, setKey, last, copied x (by omega) notSlot]
  obtain ⟨before, after, touches, adopted, keysCopied⟩ := run
  have holeSame : cut + hole - (h.count node + 1) / 2 - 1 = hole := by omega
  let sized := copied.2.setCount sibling (h.count node + 1 - cut)
  have same : result.2 = ((sized.setKey sibling hole key).adopt sibling hole (kid (cut + hole))).adopt sibling
      (hole + 1) (kid (cut + hole + 1)) := by
    have counted : (if copied.1 > hole then copied.2.setCount sibling (copied.1 + 1)
        else (copied.2.check (copied.1 = hole)).setCount sibling (copied.1 + 2)) = sized := by
      by_cases met : copied.1 > hole
      · rw [if_pos met, show copied.1 + 1 = h.count node + 1 - cut by omega]
      · rw [if_neg met, show copied.1 = hole by omega]
        simp only [decide_true, check_true, sized]
        congr 1
        omega
    rw [kidLeft, kidRight, ← counted]
    simp only [result, nonLeafSplitRight2, holeSame]
    rfl
  have moved : Touches (· = sibling) upper front result.2 := by
    rw [same]
    exact (((touches.setCount rfl _).setKey rfl _ _).adopt rfl ⟨hole, by omega, rfl⟩ _).adopt rfl
      ⟨hole + 1, by omega, rfl⟩ _
  refine ⟨halves _ moved ?_, ?_⟩
  · have slot : ∀ x < h.count node + 1 - cut, result.2.subPtr sibling x = kid (cut + x) ∧
        result.2.parent (kid (cut + x)) = some sibling ∧ result.2.parentKeyIdx (kid (cut + x)) = x - 1 := by
      intro x less
      have rightLeft := unlike hole (hole + 1) (by omega) (by omega) (by omega)
      rw [same]
      by_cases right : x = hole + 1
      · simp [adopt, right, Nat.add_assoc]
      · by_cases left : x = hole
        · subst left
          simp [adopt, Nat.add_assoc, rightLeft]
        · have fromRight := unlike x (hole + 1) (by omega) (by omega) right
          have fromLeft := unlike x hole (by omega) (by omega) left
          have earlier := adopted x (by omega) left right
          rw [← Nat.add_assoc] at fromRight
          simp only [adopt, setKey, setCount, sized, update_self, update_of_ne right,
            update_of_ne left, update_of_ne fromRight, update_of_ne fromLeft]
          exact earlier
    refine ⟨?_, fun x less => (slot x less).1, fun x less => ?_, fun x less => (slot x less).2⟩
    · rw [same]
      exact update_self ..
    · rw [same]
      by_cases left : x = hole
      · simp [adopt, setKey, left, keySelf]
      · simp [adopt, setKey, setCount, sized, left, keysCopied x (by omega) left]
  · exact (keyLt (cut - 1) (by omega)).symm

end

theorem nonLeafSimpleInsert_spec (receives : h.Receives node lCh rCh insert) (key : Int) :
    let result := h.nonLeafSimpleInsert node lCh rCh key insert
    Touches (· = node) (fun child => ∃ i ≤ h.count node, withKids (h.subPtr node) insert lCh rCh i = child)
        h result ∧
      result.Filled node (h.count node + 1) (withKids (h.subPtr node) insert lCh rCh)
        (insertAt (h.key node) insert key) := by
  intro result
  have inside := receives.inside
  have distinct := receives.distinct
  have kidLt : ∀ i < insert, withKids (h.subPtr node) insert lCh rCh i = h.subPtr node i :=
    fun i less => withKids_of_lt less
  have kidGt : ∀ i, insert < i → withKids (h.subPtr node) insert lCh rCh (i + 1) = h.subPtr node i :=
    fun i more => withKids_of_gt (by omega)
  have kidLeft : withKids (h.subPtr node) insert lCh rCh insert = lCh := withKids_left
  have kidRight : withKids (h.subPtr node) insert lCh rCh (insert + 1) = rCh := withKids_right
  generalize withKids (h.subPtr node) insert lCh rCh = kid at *
  let kids := fun child => ∃ i ≤ h.count node, kid i = child
  have unlike : ∀ x s, x ≤ h.count node → s ≤ h.count node → x ≠ s → kid x ≠ kid s :=
    fun x s xSmall sSmall apart equal => apart (distinct x xSmall s sSmall equal)
  -- counting down, the slots above `i` have moved up by one
  let motive := fun i (g : Heap) => Touches (· = node) kids h g ∧ g.parent = h.parent ∧
    (∀ x, i < x → x < h.count node → g.subPtr node (x + 1) = h.subPtr node x ∧
      g.parentKeyIdx (h.subPtr node x) = x ∧ g.key node x = h.key node (x - 1)) ∧
    (∀ x ≤ i, g.key node x = h.key node x) ∧ (∀ x ≤ i + 1, g.subPtr node x = h.subPtr node x) ∧
    ∀ x < insert, g.parentKeyIdx (h.subPtr node x) = h.parentKeyIdx (h.subPtr node x)
  let moved := forDown (h.count node - 1) insert (fun i h =>
    (h.setKey node i (h.key node (i - 1))).place node (i + 1) (h.subPtr node i)) h
  have run : motive insert moved := by
    have start : motive (h.count node - 1) h :=
      ⟨Touches.refl _ _ _, rfl, fun x more less => by omega, fun _ _ => rfl, fun _ _ => rfl, fun _ _ => rfl⟩
    refine forDown_invariant (by omega) start ?_
    rintro i g low high ⟨touches, parent, upper, lowerKeys, lowerKids, front⟩
    have source : g.subPtr node (i + 1) = kid (i + 2) := by
      grind
    rw [source]
    refine ⟨(touches.setKey rfl _ _).place rfl ⟨i + 2, by omega, rfl⟩ _, parent, ?_, ?_, ?_, ?_⟩
    · intro x more less
      by_cases here : x = i + 1
      · subst here
        have own := kidGt (i + 1) (by omega)
        simp [place, setKey, ← own, lowerKeys i (by omega)]
      · obtain ⟨slot, index, key⟩ := upper x (by omega) less
        have other : h.subPtr node x ≠ kid (i + 2) := by
          grind
        simp [place, setKey, here, slot, index, key, other]
    · intro x least
      simp [place, setKey, show x ≠ i + 1 by omega, lowerKeys x (by omega)]
    · intro x least
      simp [place, setKey, show x ≠ i + 2 by omega, lowerKids x (by omega)]
    · intro x less
      have other : h.subPtr node x ≠ kid (i + 2) := by
        rw [← kidLt x less]
        exact unlike x (i + 2) (by omega) (by omega) (by omega)
      simp [place, setKey, other, front x less]
  obtain ⟨touches, parent, upper, lowerKeys, lowerKids, front⟩ := run
  have same : result = (((moved.setKey node insert key).place node insert (kid insert)).place node
      (insert + 1) (kid (insert + 1))).setCount node (h.count node + 1) := by
    rw [kidLeft, kidRight]
    rfl
  rw [same]
  refine ⟨(((touches.setKey rfl _ _).place rfl ⟨insert, by omega, rfl⟩ _).place rfl
    ⟨insert + 1, by omega, rfl⟩ _).setCount rfl _, update_self .., ?_, ?_, ?_⟩
  · intro x less
    rcases Nat.lt_trichotomy x insert with below | here | above
    · simp [place, setKey, setCount, show x ≠ insert by omega, show x ≠ insert + 1 by omega,
        lowerKids x (by omega), kidLt x below]
    · simp [place, setCount, here]
    · by_cases next : x = insert + 1
      · simp [place, setCount, next]
      · obtain ⟨y, rfl⟩ : ∃ y, x = y + 1 := ⟨x - 1, by omega⟩
        simp [place, setKey, setCount, show y + 1 ≠ insert by omega, show y ≠ insert by omega,
          (upper y (by omega) (by omega)).1, kidGt y (by omega)]
  · intro x less
    rcases Nat.lt_trichotomy x insert with below | here | above
    · rw [insertAt_of_lt below]
      simp [place, setKey, setCount, show x ≠ insert by omega, lowerKeys x (by omega)]
    · subst here
      simp [place, setKey, setCount, insertAt_self x key]
    · rw [insertAt_of_gt above]
      simp [place, setKey, setCount, show x ≠ insert by omega, (upper x above (by omega)).2.2]
  · have owners := receives.parents
    intro x less
    change moved.parent (kid x) = some node ∧ update (update moved.parentKeyIdx
      (kid insert) (insert - 1)) (kid (insert + 1)) ((insert + 1 : Nat) - 1) (kid x) = x - 1
    rw [parent]
    by_cases left : x = insert
    · subst left
      rw [update_of_ne (unlike x (x + 1) (by omega) (by omega) (by omega)), update_self, kidLeft]
      exact ⟨receives.left, rfl⟩
    · by_cases right : x = insert + 1
      · grind [update_self, Receives.right]
      · rw [update_of_ne (unlike x (insert + 1) (by omega) (by omega) right),
          update_of_ne (unlike x insert (by omega) (by omega) left)]
        rcases Nat.lt_or_ge x insert with below | above
        · grind
        · obtain ⟨y, rfl⟩ : ∃ y, x = y + 1 := ⟨x - 1, by omega⟩
          rw [kidGt y (by omega), (upper y (by omega) (by omega)).2.1]
          exact ⟨(owners y (by omega) (by omega)).1, by omega⟩

end Heap

end BlockchainPG.Mbt
