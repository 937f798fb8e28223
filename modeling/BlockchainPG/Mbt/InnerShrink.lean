import BlockchainPG.Mbt.Shrink

/-! `non_leaf_remove` at every level. -/

namespace BlockchainPG.Mbt

open Lib Function List

section Siblings

variable {t : BplusTree} {y : Shape} {node sibling parent : Addr} {remove : Nat} {left right : List Addr}

theorem separator_eq {first second : Addr} (lies : Lies t y (k + 1) parent)
    (kids : y.kids parent = left ++ [first, second] ++ right) :
    t.heap.key parent left.length = (siblingPair y parent left first second right).cut := by
  obtain ⟨⟨-, kidRow, keyRow, -⟩, -⟩ := lies
  grind [slots_length, siblingPair, slots_getElem?]

theorem kids_apart (valid : y.Valid) (first : a ∈ y.nodes (k + 1)) (second : b ∈ y.nodes (k + 1)) (ne : a ≠ b)
    (left : x ∈ y.kids a) (right : z ∈ y.kids b) : x ≠ z := by
  rintro rfl
  exact ne (valid.parent_unique first second left right)

theorem Heap.Holds.slot_mem {h : Heap} {children : List Addr} {keys : List Int}
    (holds : h.Holds (k + 1) node children keys) (inside : i < h.count node) : h.subPtr node i ∈ children := by
  rw [← holds.2.1]
  exact mem_slots.mpr ⟨i, inside, rfl⟩

theorem Heap.Holds.slot_inj {h : Heap} {children : List Addr} {keys : List Int}
    (holds : h.Holds (k + 1) node children keys) (distinct : children.Nodup) :
    ∀ i < h.count node, ∀ j < h.count node, h.subPtr node i = h.subPtr node j → i = j := by
  intro i insideI j insideJ same
  rw [← holds.2.1] at distinct
  exact slots_injective distinct insideI insideJ same

theorem innerShift_settles {pair : Pair Addr Int} {h' : Heap} {kids : Addr → Prop} {firstKids secondKids : List Addr}
    {firstKeys secondKeys : List Int} {cut : Int} (rest : RepBut (· = node) y.nodes t y)
    (half : node ∈ [pair.first, pair.second]) (apart : y.Apart (k + 1) pair)
    (reparts : Layout.Reparts (k + 1) pair firstKids secondKids firstKeys secondKeys cut)
    (touches : Heap.Touches (· ∈ [pair.first, pair.second, pair.parent]) kids t.heap h')
    (kid : ∀ child, kids child → child ∈ pair.firstKids ∨ child ∈ pair.secondKids)
    (first : h'.Holds (k + 1) pair.first firstKids firstKeys)
    (second : h'.Holds (k + 1) pair.second secondKids secondKeys)
    (firstSized : Sized t.order t.entries True (k + 1) firstKids firstKeys)
    (secondSized : Sized t.order t.entries True (k + 1) secondKids secondKeys)
    (key : h'.key pair.parent = update (t.heap.key pair.parent) pair.left.length cut)
    (count : h'.count pair.parent = t.heap.count pair.parent)
    (subPtr : h'.subPtr pair.parent = t.heap.subPtr pair.parent) :
    Settles (y.nodes 0) y.leafKeys t { t with heap := h' } := by
  have valid := rest.valid
  have rep := shift_rep rest half apart reparts touches.withPayload (fun child own => ⟨Nat.succ_pos k, kid child own⟩)
    first second firstSized secondSized key count subPtr
  refine ⟨⟨_, rep, congrFun (Layout.rotate_nodes valid apart reparts) 0, Layout.rotate_leafKeys valid apart reparts⟩,
    LeavesKept.touches touches fun leaf mem inside => ?_⟩
  simp only [mem_cons, not_mem_nil, or_false] at inside
  rcases inside with rfl | rfl | rfl
  · exact valid.apart 0 (k + 1) (by omega) _ mem (apart.first_mem valid)
  · exact valid.apart 0 (k + 1) (by omega) _ mem (apart.second_mem valid)
  · exact valid.apart 0 (k + 2) (by omega) _ mem apart.parent_mem

theorem Losing.shiftFromLeft (losing : Losing t y k node remove) (inner : node ≠ y.root)
    (above : parent ∈ y.nodes (k + 2)) (kids : y.kids parent = left ++ [sibling, node] ++ right)
    (plenty : (t.order + 1) / 2 < t.heap.count sibling) : Settles (y.nodes 0) y.leafKeys t
      { t with heap := t.heap.nonLeafShiftFromLeft node sibling parent left.length remove } := by
  have valid := losing.rest.valid
  have inside := losing.inside
  have apart := siblingPair_apart valid above kids
  have ne : sibling ≠ node := apart.ne valid
  have siblingMem : sibling ∈ y.nodes (k + 1) := apart.first_mem valid
  obtain ⟨holds, least, most, -⟩ := losing.rest.lies (k + 1) sibling siblingMem ne
  have own : node ∈ [sibling, node] := by simp
  have cut : t.heap.key parent left.length = (siblingPair y parent left sibling node right).cut :=
    separator_eq (losing.rest.lies_parent own apart) kids
  have order := losing.rest.order_pos
  have siblingCount := holds.count
  obtain ⟨type, kidRow, keyRow, -⟩ := id holds
  have notParent : parent ≠ node ∧ parent ≠ sibling :=
    ⟨fun same => valid.apart (k + 1) (k + 2) (by omega) node losing.mem (same ▸ above),
      fun same => valid.apart (k + 1) (k + 2) (by omega) sibling siblingMem (same ▸ above)⟩
  obtain ⟨touches, second, first, key, count, subPtr⟩ := Heap.nonLeafShiftFromLeft_spec losing.loses holds.filled
    ne notParent (by omega) (holds.slot_inj (valid.kids_nodup siblingMem))
    (fun i insideI j insideJ => kids_apart valid siblingMem losing.mem ne (holds.slot_mem insideI)
      (losing.kid_mem _ ⟨j, insideJ, rfl⟩)) left.length
  obtain ⟨m, size⟩ : ∃ m, t.heap.count sibling = m + 2 := ⟨t.heap.count sibling - 2, by omega⟩
  obtain ⟨n, nodeSize⟩ : ∃ n, t.heap.count node = n + 2 := ⟨t.heap.count node - 2, by omega⟩
  have lostKids := losing.kidRow
  have lostKeys := losing.keyRow
  obtain ⟨bound, wide⟩ := losing.sized
  rw [size] at first second touches key kidRow keyRow plenty
  rw [nodeSize] at second lostKids lostKeys bound wide
  simp only [Nat.add_sub_cancel, show m + 2 - 1 = m + 1 from rfl, show n + 2 - 1 = n + 1 from rfl,
    show n + 2 - 2 = n from rfl, cut] at first second key kidRow keyRow lostKids lostKeys
  have firstHolds := first.holds (k := k) ((congrFun touches.type sibling).trans type)
  have secondHolds := second.holds (k := k) ((congrFun touches.type node).trans losing.type)
  rw [slots_insertAt_zero, lostKids, show n + 2 - 1 = n + 1 from rfl, slots_insertAt_zero, lostKeys] at secondHolds
  have kept := losing.kids_length
  refine innerShift_settles losing.rest own apart ⟨?_, ?_, ?_, ?_⟩ (touches.weaken ?_ fun _ => id) ?_ firstHolds
    secondHolds ?_ ?_ key count subPtr
  · grind [Layout.joinKeys, siblingPair, slots_succ]
  · intro _
    show _ = y.kids sibling ++ y.kids node
    rw [← kidRow, slots_succ _ (m + 1), append_assoc]
    rfl
  · exact fun bottom => absurd bottom (Nat.succ_ne_zero k)
  · simp
  · grind [siblingPair]
  · rintro child (rfl | slot)
    · exact Or.inl (holds.slot_mem (by omega))
    · exact Or.inr (losing.kid_mem child slot)
  · simp only [Sized, slots_length]
    omega
  · grind [Sized]

theorem shiftFromRight_settles (rest : RepBut (· = node) y.nodes t y) (mem : node ∈ y.nodes (k + 1))
    (own : t.heap.Holds (k + 1) node (y.kids node) (y.keys node)) (above : parent ∈ y.nodes (k + 2))
    (kids : y.kids parent = left ++ [node, sibling] ++ right) (plenty : (t.order + 1) / 2 < t.heap.count sibling)
    (pos : 0 < t.heap.count node) (low : t.order / 2 ≤ t.heap.count node + 1)
    (high : t.heap.count node + 1 ≤ t.order) : Settles (y.nodes 0) y.leafKeys t
      { t with heap := t.heap.nonLeafShiftFromRight node sibling parent left.length } := by
  have valid := rest.valid
  have apart := siblingPair_apart valid above kids
  have ne : sibling ≠ node := Ne.symm (apart.ne valid)
  have siblingMem : sibling ∈ y.nodes (k + 1) := apart.second_mem valid
  obtain ⟨holds, least, most, half⟩ := rest.lies (k + 1) sibling siblingMem ne
  have half : node ∈ [node, sibling] := by simp
  have cut : t.heap.key parent left.length = (siblingPair y parent left node sibling right).cut :=
    separator_eq (rest.lies_parent half apart) kids
  have order := rest.order_pos
  have siblingCount := holds.count
  obtain ⟨type, kidRow, keyRow, -⟩ := id holds
  obtain ⟨ownType, ownKids, ownKeys, -⟩ := id own
  have notParent : parent ≠ node ∧ parent ≠ sibling :=
    ⟨fun same => valid.apart (k + 1) (k + 2) (by omega) node mem (same ▸ above),
      fun same => valid.apart (k + 1) (k + 2) (by omega) sibling siblingMem (same ▸ above)⟩
  obtain ⟨touches, first, second, key, count, subPtr⟩ := Heap.nonLeafShiftFromRight_spec own.filled holds.filled
    ne notParent pos (by omega) (holds.slot_inj (valid.kids_nodup siblingMem))
    (fun i insideI j insideJ => kids_apart valid mem siblingMem ne.symm (own.slot_mem insideI)
      (holds.slot_mem insideJ)) left.length
  obtain ⟨m, size⟩ : ∃ m, t.heap.count sibling = m + 2 := ⟨t.heap.count sibling - 2, by omega⟩
  obtain ⟨n, nodeSize⟩ : ∃ n, t.heap.count node = n + 1 := ⟨t.heap.count node - 1, by omega⟩
  rw [size] at second kidRow keyRow plenty
  rw [nodeSize] at first ownKids ownKeys low high
  rw [cut] at first
  have firstHolds := first.holds (k := k) ((congrFun touches.type node).trans ownType)
  have secondHolds := second.holds (k := k) ((congrFun touches.type sibling).trans type)
  have firstKids : slots (update (t.heap.subPtr node) (n + 1) (t.heap.subPtr sibling 0)) (n + 1 + 1) =
      y.kids node ++ [t.heap.subPtr sibling 0] := by
    rw [slots_succ, update_self, ← ownKids]
    grind [slots_congr]
  have firstKeys : slots (update (t.heap.key node) n (siblingPair y parent left node sibling right).cut)
      (n + 1) = y.keys node ++ [(siblingPair y parent left node sibling right).cut] := by
    rw [slots_succ, update_self, ← ownKeys]
    grind [slots_congr]
  have nodeKids : (y.kids node).length = n + 1 := by rw [← ownKids, slots_length]
  have nodeKeys : (y.keys node).length = n := by rw [← ownKeys, slots_length, Nat.add_sub_cancel]
  simp only [Nat.add_sub_cancel, firstKids, firstKeys, show m + 2 - 1 = m + 1 from rfl] at firstHolds secondHolds keyRow
  refine innerShift_settles rest half apart ⟨?_, ?_, ?_, ?_⟩ touches ?_ firstHolds secondHolds ?_ ?_ key count subPtr
  · grind [Layout.joinKeys, siblingPair, slots_eq_cons]
  · intro _
    show _ = y.kids node ++ y.kids sibling
    grind [slots_eq_cons]
  · exact fun bottom => absurd bottom (Nat.succ_ne_zero k)
  · simp [nodeKids, nodeKeys]
  · rintro child ⟨i, inside, rfl⟩
    exact Or.inr (holds.slot_mem inside)
  · grind [Sized]
  · simp only [Sized, slots_length]
    omega

theorem innerMerge_losing {pair : Pair Addr Int} {h' : Heap} {kids : Addr → Prop}
    (rest : RepBut (· = node) y.nodes t y) (half : node ∈ [pair.first, pair.second]) (apart : y.Apart (k + 1) pair)
    (touches : Heap.Touches (· = pair.first) kids { t.heap with links := t.heap.links.del (.node pair.second) } h')
    (kid : ∀ child, kids child → child ∈ pair.firstKids ∨ child ∈ pair.secondKids)
    (first : h'.Holds (k + 1) pair.first (pair.firstKids ++ pair.secondKids)
      (pair.firstKeys ++ pair.cut :: pair.secondKeys))
    (sized : Sized t.order t.entries True (k + 1) (pair.firstKids ++ pair.secondKids) []) :
    Losing { t with heap := h' } (y.merge (k + 1) pair) (k + 1) pair.parent pair.left.length ∧
      LeavesKept (y.nodes 0) t { t with heap := h' } := by
  have valid := rest.valid
  refine ⟨merge_losing rest half apart touches.withPayload (fun child own => ⟨Nat.succ_pos k, kid child own⟩) first
    sized, ?_, touches.payload, rfl, rfl⟩
  intro leaf mem
  have outside : leaf ≠ pair.first := by
    rintro rfl
    exact valid.apart 0 (k + 1) (by omega) _ mem (apart.first_mem valid)
  exact ⟨touches.count leaf outside, touches.key leaf outside⟩

theorem slots_joined (row back : Nat → Int) (cut : Int) (n m : Nat) :
    slots (appendAt (update row n cut) (n + 1) back) (n + 1 + m) = slots row n ++ cut :: slots back m := by
  rw [slots_appendAt, slots_succ, update_self, append_assoc]
  grind [slots_congr]

theorem Losing.mergeToLeft (losing : Losing t y k node remove) (above : parent ∈ y.nodes (k + 2))
    (kids : y.kids parent = left ++ [sibling, node] ++ right) (few : t.heap.count node ≤ (t.order + 1) / 2)
    (siblingFew : t.heap.count sibling ≤ (t.order + 1) / 2) :
    let h' := t.heap.nonLeafMergeInt64ToLeft node sibling parent left.length remove
    Losing { t with heap := h' } (y.merge (k + 1) (siblingPair y parent left sibling node right)) (k + 1) parent
        left.length ∧
      LeavesKept (y.nodes 0) t { t with heap := h' } := by
  intro h'
  have valid := losing.rest.valid
  have inside := losing.inside
  have apart := siblingPair_apart valid above kids
  have ne : sibling ≠ node := apart.ne valid
  have siblingMem : sibling ∈ y.nodes (k + 1) := apart.first_mem valid
  obtain ⟨holds, least, -, half⟩ := losing.rest.lies (k + 1) sibling siblingMem ne
  have own : node ∈ [sibling, node] := by simp
  have cut : t.heap.key parent left.length = (siblingPair y parent left sibling node right).cut :=
    separator_eq (losing.rest.lies_parent own apart) kids
  have siblingCount := holds.count
  obtain ⟨type, kidRow, keyRow, -⟩ := id holds
  obtain ⟨touches, first⟩ := Heap.nonLeafMergeInt64ToLeft_spec losing.loses holds.filled ne.symm
    (by omega) (fun i insideI j insideJ => kids_apart valid siblingMem losing.mem ne
      (holds.slot_mem insideI) (losing.kid_mem _ ⟨j, insideJ, rfl⟩)) left.length
  obtain ⟨m, size⟩ : ∃ m, t.heap.count sibling = m + 1 := ⟨t.heap.count sibling - 1, by omega⟩
  obtain ⟨n, nodeSize⟩ : ∃ n, t.heap.count node = n + 2 := ⟨t.heap.count node - 2, by omega⟩
  have lostKids := losing.kidRow
  have lostKeys := losing.keyRow
  have kept := losing.kids_length
  have rootless : sibling ≠ y.root := fun same => valid.root_notKid above (same ▸ by simp [kids])
  have enough := half rootless
  rw [size] at first kidRow keyRow
  rw [nodeSize] at first lostKids lostKeys
  simp only [Nat.add_sub_cancel, show n + 2 - 1 = n + 1 from rfl] at first lostKids lostKeys keyRow
  have joined := first.holds (k := k) ((congrFun touches.type sibling).trans type)
  rw [slots_appendAt, kidRow, lostKids, show m + 1 + (n + 1) - 1 = m + 1 + n by omega, slots_joined, keyRow, lostKeys,
    cut] at joined
  refine innerMerge_losing losing.rest own apart touches (fun child slot => Or.inr (losing.kid_mem child slot))
    joined ?_
  simp only [Sized, siblingPair, length_append]
  omega

/-- `non_leaf_merge_from_right` passes the loss on to the parent. The node already closed its gap. -/
theorem mergeFromRight_losing (rest : RepBut (· = node) y.nodes t y) (mem : node ∈ y.nodes (k + 1))
    (own : t.heap.Holds (k + 1) node (y.kids node) (y.keys node)) (above : parent ∈ y.nodes (k + 2))
    (kids : y.kids parent = left ++ [node, sibling] ++ right) (pos : 0 < t.heap.count node)
    (few : t.heap.count node + t.heap.count sibling ≤ t.order) :
    let h' := t.heap.nonLeafMergeFromRight node sibling parent left.length
    Losing { t with heap := h' } (y.merge (k + 1) (siblingPair y parent left node sibling right)) (k + 1) parent
        left.length ∧
      LeavesKept (y.nodes 0) t { t with heap := h' } := by
  intro h'
  have valid := rest.valid
  have apart := siblingPair_apart valid above kids
  have ne : sibling ≠ node := Ne.symm (apart.ne valid)
  have siblingMem : sibling ∈ y.nodes (k + 1) := apart.second_mem valid
  obtain ⟨holds, least, -, enough⟩ := rest.lies (k + 1) sibling siblingMem ne
  have half : node ∈ [node, sibling] := by simp
  have cut : t.heap.key parent left.length = (siblingPair y parent left node sibling right).cut :=
    separator_eq (rest.lies_parent half apart) kids
  have siblingCount := holds.count
  have nodeCount := own.count
  obtain ⟨-, kidRow, keyRow, -⟩ := id holds
  obtain ⟨ownType, ownKids, ownKeys, -⟩ := id own
  obtain ⟨touches, first⟩ := Heap.nonLeafMergeFromRight_spec own.filled holds.filled ne pos
    (holds.slot_inj (valid.kids_nodup siblingMem)) (fun i insideI j insideJ => kids_apart valid mem siblingMem
      ne.symm (own.slot_mem insideI) (holds.slot_mem insideJ)) left.length
  obtain ⟨m, size⟩ : ∃ m, t.heap.count sibling = m + 1 := ⟨t.heap.count sibling - 1, by omega⟩
  obtain ⟨n, nodeSize⟩ : ∃ n, t.heap.count node = n + 1 := ⟨t.heap.count node - 1, by omega⟩
  have rootless : sibling ≠ y.root := fun same => valid.root_notKid above (same ▸ by simp [kids])
  have wide := enough rootless
  rw [size] at first kidRow keyRow
  rw [nodeSize] at first ownKids ownKeys
  simp only [Nat.add_sub_cancel] at first keyRow ownKeys
  have joined := first.holds (k := k) ((congrFun touches.type node).trans ownType)
  rw [slots_appendAt, kidRow, ownKids, show n + 1 + (m + 1) - 1 = n + 1 + m by omega, slots_joined, keyRow, ownKeys,
    cut] at joined
  refine innerMerge_losing rest half apart touches ?_ joined ?_
  · rintro child ⟨i, inside, rfl⟩
    exact Or.inr (holds.slot_mem inside)
  · simp only [Sized, siblingPair, length_append]
    omega

end Siblings

section Upwards

variable {t : BplusTree} {y : Shape} {node : Addr} {remove : Nat}

theorem Settles.of_merge (valid : y.Valid) (apart : y.Apart (k + 1) pair)
    (settles : Settles ((y.merge (k + 1) pair).nodes 0) (y.merge (k + 1) pair).leafKeys t t') :
    Settles (y.nodes 0) y.leafKeys t t' := by
  rwa [(Layout.merge_edit valid apart).nodes_else 0 (by omega), Layout.merge_leafKeys valid apart] at settles

theorem nonLeafRemove_spec (losing : Losing t y k node remove) (enough : y.level < k + 1 + fuel) :
    Settles (y.nodes 0) y.leafKeys t (nonLeafRemove fuel t node remove) := by
  induction fuel generalizing t y k node remove with
  | zero => exact absurd (losing.rest.valid.level_le losing.mem) (by omega)
  | succ fuel ih =>
    have valid := losing.rest.valid
    have order := losing.rest.order_pos
    have inside := losing.inside
    unfold nonLeafRemove
    by_cases few : t.heap.count node ≤ (t.order + 1) / 2
    · simp only [few, ↓reduceIte]
      by_cases top : node = y.root
      · have orphan : t.heap.parent node = none := top ▸ losing.rest.top
        simp only [orphan]
        by_cases two : t.heap.count node = 2
        · have first : remove = 0 := by omega
          simp only [two, first, ↓reduceIte, decide_true, Heap.check_true]
          exact losing.collapse top two
        · grind [Losing.simple]
      · obtain ⟨parent, above, known, chosen⟩ := select_sibling losing.rest losing.mem top
        have wide := losing.sized.2 top
        simp only [known]
        rcases chosen with ⟨left, l, right, kids, index, choice⟩ | ⟨left, r, right, kids, index, choice⟩
        · have place : (t.heap.parentKeyIdx node).toNat = left.length := by omega
          simp only [choice, place]
          by_cases plenty : t.heap.count l > (t.order + 1) / 2
          · grind [Losing.shiftFromLeft]
          · simp only [plenty, ↓reduceIte]
            obtain ⟨next, kept⟩ := losing.mergeToLeft above kids few (not_lt.mp plenty)
            exact (Settles.of_merge valid (siblingPair_apart valid above kids) (ih next (by
              show y.level < _
              omega))).after kept
        · have place : (t.heap.parentKeyIdx node + 1).toNat = left.length := by omega
          obtain ⟨rest, kept, holds, count, -⟩ := losing.removed
          have pos : 0 < (t.heap.nonLeafSimpleRemove node remove).count node := by omega
          simp only [choice, place]
          by_cases plenty : (t.heap.nonLeafSimpleRemove node remove).count r > (t.order + 1) / 2
          · simp only [plenty, ↓reduceIte]
            exact (shiftFromRight_settles rest losing.mem holds above kids plenty pos (by simp only; omega)
              (by simp only; omega)).after kept
          · simp only [plenty, ↓reduceIte]
            obtain ⟨next, kept'⟩ := mergeFromRight_losing rest losing.mem holds above kids pos
              (by simp only; omega)
            exact (Settles.of_merge valid (siblingPair_apart valid above kids) (ih next (by
              show y.level < _
              omega))).after (kept.trans kept')
    · grind [Losing.simple]

end Upwards

end BlockchainPG.Mbt
