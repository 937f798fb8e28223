import BlockchainPG.Lib.Layout

/-! Cutting a node of a layout in two and joining two neighbours. -/

namespace BlockchainPG.Lib

open Function List

/-- Two neighbouring siblings, what they hold, and what surrounds them in their parent. -/
structure Pair (α : Type u) (κ : Type v) where
  parent : α
  left : List α
  right : List α
  lower : List κ
  upper : List κ
  first : α
  second : α
  firstKids : List α
  secondKids : List α
  firstKeys : List κ
  secondKeys : List κ
  cut : κ

/-- The same siblings with other contents. -/
def Pair.hold {α : Type u} {κ : Type v} (pair : Pair α κ) (firstKids secondKids : List α)
    (firstKeys secondKeys : List κ) (cut : κ) : Pair α κ :=
  { pair with
    firstKids := firstKids
    secondKids := secondKids
    firstKeys := firstKeys
    secondKeys := secondKeys
    cut := cut }

namespace Layout

variable {α : Type u} {κ : Type v}

/-- The keys of two neighbours together. Between inner nodes the separator of
the parent comes down. -/
def joinKeys : Nat → List κ → κ → List κ → List κ
  | 0, first, _, second => first ++ second
  | _ + 1, first, cut, second => first ++ cut :: second

/-- The two siblings stand beside each other on level `k`. -/
structure Apart (layout : Layout α κ) (k : Nat) (pair : Pair α κ) : Prop where
  parent_mem : pair.parent ∈ layout.nodes (k + 1)
  kids : layout.kids pair.parent = pair.left ++ [pair.first, pair.second] ++ pair.right
  keys : layout.keys pair.parent = pair.lower ++ [pair.cut] ++ pair.upper
  left_length : pair.left.length = pair.lower.length
  first_keys : layout.keys pair.first = pair.firstKeys
  second_keys : layout.keys pair.second = pair.secondKeys
  first_kids : 0 < k → layout.kids pair.first = pair.firstKids
  second_kids : 0 < k → layout.kids pair.second = pair.secondKids

/-- One node stands in the place of the two siblings and holds what they hold. -/
structure Joined (layout : Layout α κ) (k : Nat) (pair : Pair α κ) (node : α) : Prop where
  parent_mem : pair.parent ∈ layout.nodes (k + 1)
  kids : layout.kids pair.parent = pair.left ++ [node] ++ pair.right
  keys : layout.keys pair.parent = pair.lower ++ [] ++ pair.upper
  left_length : pair.left.length = pair.lower.length
  own_keys : layout.keys node = joinKeys k pair.firstKeys pair.cut pair.secondKeys
  own_kids : 0 < k → layout.kids node = pair.firstKids ++ pair.secondKids

/-- The two halves of a cut: one of them is the old node, any other is new, and
the cut is a place where the keys can be told apart. -/
structure Cuts (layout : Layout α κ) (k : Nat) (pair : Pair α κ) (node : α) : Prop where
  ne : pair.first ≠ pair.second
  first_known : pair.first = node ∨ ∀ j, pair.first ∉ layout.nodes j
  second_known : pair.second = node ∨ ∀ j, pair.second ∉ layout.nodes j
  leaf : k = 0 → pair.firstKeys ≠ [] ∧ pair.secondKeys.head? = some pair.cut
  inner : 0 < k → pair.firstKids.length = pair.firstKeys.length + 1

/-- Other contents for two siblings that are the same taken together. -/
structure Reparts (k : Nat) (pair : Pair α κ) (firstKids secondKids : List α) (firstKeys secondKeys : List κ)
    (cut : κ) : Prop where
  keys : joinKeys k firstKeys cut secondKeys = joinKeys k pair.firstKeys pair.cut pair.secondKeys
  kids : 0 < k → firstKids ++ secondKids = pair.firstKids ++ pair.secondKids
  leaf : k = 0 → firstKeys ≠ [] ∧ secondKeys.head? = some cut
  inner : 0 < k → firstKids.length = firstKeys.length + 1

variable [LinearOrder κ] {layout : Layout α κ} {pair : Pair α κ}

theorem Joined.span (joined : layout.Joined k pair node) (valid : layout.Valid) :
    layout.lo node = lastBound (layout.lo pair.parent) pair.lower ∧
      layout.hi node = firstBound pair.upper (layout.hi pair.parent) := by
  obtain ⟨-, tiles, -⟩ := (valid.inner joined.parent_mem).window joined.kids joined.keys
    joined.left_length rfl
  simpa [Layout.span, gaps] using tiles

theorem Apart.span (apart : layout.Apart k pair) (valid : layout.Valid) :
    layout.lo pair.first = lastBound (layout.lo pair.parent) pair.lower ∧
      layout.hi pair.first = pair.cut ∧ layout.lo pair.second = pair.cut ∧
      layout.hi pair.second = firstBound pair.upper (layout.hi pair.parent) := by
  obtain ⟨-, tiles, -⟩ := (valid.inner apart.parent_mem).window apart.kids apart.keys
    apart.left_length rfl
  grind [span, gaps]

theorem Joined.mem (joined : layout.Joined k pair node) (valid : layout.Valid) : node ∈ layout.nodes k :=
  valid.kid_mem joined.parent_mem (by simp [joined.kids])

theorem Apart.first_mem (apart : layout.Apart k pair) (valid : layout.Valid) : pair.first ∈ layout.nodes k :=
  valid.kid_mem apart.parent_mem (by simp [apart.kids])

theorem Apart.second_mem (apart : layout.Apart k pair) (valid : layout.Valid) : pair.second ∈ layout.nodes k :=
  valid.kid_mem apart.parent_mem (by simp [apart.kids])

theorem Apart.ne (apart : layout.Apart k pair) (valid : layout.Valid) : pair.first ≠ pair.second := by
  have distinct := valid.kids_nodup apart.parent_mem
  grind [kids]

theorem Joined.leaf (joined : layout.Joined 0 pair node) (valid : layout.Valid) (cuts : layout.Cuts 0 pair node) :
    WithinLeaf (layout.lo node) pair.firstKeys pair.cut ∧
      (layout.lo node < (pair.cut : WithBot κ) ∧ (pair.cut : WithTop κ) < layout.hi node) ∧
      WithinLeaf pair.cut pair.secondKeys (layout.hi node) := by
  have within : WithinLeaf (layout.lo node) (pair.firstKeys ++ pair.secondKeys) (layout.hi node) := by
    have leaf := valid.leaf (joined.mem valid)
    rwa [Leaf, joined.own_keys] at leaf
  obtain ⟨some, head⟩ := cuts.leaf rfl
  obtain ⟨key, front, first⟩ := exists_cons_of_ne_nil some
  obtain ⟨back, second⟩ : ∃ back, pair.secondKeys = pair.cut :: back := by
    cases keys : pair.secondKeys with
    | nil => simp [keys] at head
    | cons other back => exact ⟨back, by simpa [keys] using head⟩
  obtain ⟨-, backSorted, across⟩ := pairwise_append.mp within.1
  have below : ∀ key ∈ pair.firstKeys, key < pair.cut :=
    fun key mem => across key mem pair.cut (by simp [second])
  have above : ∀ key ∈ pair.secondKeys, pair.cut ≤ key := by
    grind [pairwise_cons]
  obtain ⟨left, right⟩ := within.cut below above
  have low : layout.lo node ≤ (key : WithBot κ) := (within.2 key (by simp [first])).1
  exact ⟨left, ⟨low.trans_lt (WithBot.coe_lt_coe.mpr (below key (by simp [first]))),
    (within.2 pair.cut (by simp [second])).2⟩, right⟩

theorem Joined.inner (joined : layout.Joined (k + 1) pair node) (valid : layout.Valid)
    (cuts : layout.Cuts (k + 1) pair node) : Within (layout.lo node) pair.firstKeys pair.cut ∧
      (layout.lo node < (pair.cut : WithBot κ) ∧ (pair.cut : WithTop κ) < layout.hi node) ∧
      Within pair.cut pair.secondKeys (layout.hi node) ∧
      pair.firstKids.map layout.span = gaps (layout.lo node) pair.firstKeys pair.cut ∧
      pair.secondKids.map layout.span = gaps pair.cut pair.secondKeys (layout.hi node) := by
  obtain ⟨within, tiles⟩ := valid.inner (joined.mem valid)
  have keys : layout.keys node = pair.firstKeys ++ pair.cut :: pair.secondKeys := joined.own_keys
  rw [keys] at within tiles
  rw [joined.own_kids (Nat.succ_pos k), gaps_append_cons, map_append] at tiles
  obtain ⟨firstTiles, secondTiles⟩ := append_inj tiles (by simp [cuts.inner (Nat.succ_pos k)])
  grind [within_cons_iff]

theorem Cuts.parent_ne (cuts : layout.Cuts k pair node) (joined : layout.Joined k pair node)
    (valid : layout.Valid) : pair.parent ≠ pair.first ∧ pair.parent ≠ pair.second := by
  have own : pair.parent ≠ node := fun same =>
    valid.apart k (k + 1) (by omega) node (joined.mem valid) (same ▸ joined.parent_mem)
  constructor
  · intro same
    rcases cuts.first_known with known | fresh
    · exact own (same.trans known)
    · exact fresh (k + 1) (same ▸ joined.parent_mem)
  · intro same
    rcases cuts.second_known with known | fresh
    · exact own (same.trans known)
    · exact fresh (k + 1) (same ▸ joined.parent_mem)

theorem Cuts.other_level (cuts : layout.Cuts k pair node) (joined : layout.Joined k pair node)
    (valid : layout.Valid) (mem : other ∈ layout.nodes j) (ne : j ≠ k) :
    other ≠ pair.first ∧ other ≠ pair.second := by
  have own : other ≠ node := fun same =>
    valid.apart j k ne other mem (same ▸ joined.mem valid)
  grind [first_known, second_known]

section Cutting

variable [DecidableEq α]

/-- Cut a node in two. -/
def split (layout : Layout α κ) (k : Nat) (pair : Pair α κ) (node : α) : Layout α κ :=
  let kids := update (update (update layout.kids
    pair.parent (pair.left ++ [pair.first, pair.second] ++ pair.right))
    pair.second pair.secondKids) pair.first pair.firstKids
  { layout with
    nodes := update layout.nodes k ((layout.nodes (k + 1)).flatMap kids)
    kids := kids
    keys := update (update (update layout.keys
      pair.parent (pair.lower ++ [pair.cut] ++ pair.upper))
      pair.second pair.secondKeys) pair.first pair.firstKeys
    lo := update (update layout.lo pair.second pair.cut) pair.first (layout.lo node)
    hi := update (update layout.hi pair.second (layout.hi node)) pair.first pair.cut }

/-- Join two neighbours into the first of them. -/
def merge (layout : Layout α κ) (k : Nat) (pair : Pair α κ) : Layout α κ :=
  let kids := update (update layout.kids
    pair.parent (pair.left ++ [pair.first] ++ pair.right))
    pair.first (pair.firstKids ++ pair.secondKids)
  { layout with
    nodes := update layout.nodes k ((layout.nodes (k + 1)).flatMap kids)
    kids := kids
    keys := update (update layout.keys
      pair.parent (pair.lower ++ [] ++ pair.upper))
      pair.first (joinKeys k pair.firstKeys pair.cut pair.secondKeys)
    hi := update layout.hi pair.first (layout.hi pair.second) }

theorem split_apart (valid : layout.Valid) (joined : layout.Joined k pair node)
    (cuts : layout.Cuts k pair node) : (layout.split k pair node).Apart k pair := by
  obtain ⟨notFirst, notSecond⟩ := cuts.parent_ne joined valid
  constructor
  · simpa [split] using joined.parent_mem
  all_goals simp [split, notFirst, notSecond, cuts.ne.symm, joined.left_length]

omit [LinearOrder κ] in
theorem split_span_else (outside : other ≠ pair.first ∧ other ≠ pair.second) :
    (layout.split k pair node).span other = layout.span other := by
  simp [split, Layout.span, outside.1, outside.2]

theorem split_edit (valid : layout.Valid) (joined : layout.Joined k pair node) (cuts : layout.Cuts k pair node) :
    Edit layout (layout.split k pair node) k pair.parent pair.left [node] [pair.first, pair.second]
      pair.right pair.lower [] [pair.cut] pair.upper := by
  have apart := split_apart valid joined cuts
  obtain ⟨lower, upper⟩ := joined.span valid
  have inside : layout.lo node < (pair.cut : WithBot κ) ∧ (pair.cut : WithTop κ) < layout.hi node := by
    cases k with
    | zero => exact (joined.leaf valid cuts).2.1
    | succ k => exact (joined.inner valid cuts).2.1
  constructor
  · rfl
  · rfl
  · exact joined.parent_mem
  · simp [split]
  · exact fun j ne => update_of_ne ne _ _
  · grind [Cuts.first_known, Cuts.second_known]
  · simpa using cuts.ne
  · exact joined.kids
  · exact apart.kids
  · exact joined.keys
  · exact apart.keys
  · exact joined.left_length
  · rfl
  · simp [split, Layout.span, gaps, cuts.ne.symm, lower, upper]
  · rw [← lower, ← upper]
    simpa [Within] using inside
  · intro other outside notParent
    simp only [mem_cons, not_mem_nil, or_false, not_or] at outside
    simp [split, outside.1, outside.2, notParent]
  · grind [split_span_else]
  · intro inner
    simp [apart.first_kids inner, apart.second_kids inner, joined.own_kids inner]
  · have firstLo : (layout.split k pair node).lo pair.first = layout.lo node := by simp [split]
    have firstHi : (layout.split k pair node).hi pair.first = pair.cut := by simp [split]
    have secondLo : (layout.split k pair node).lo pair.second = pair.cut := by
      simp [split, cuts.ne.symm]
    have secondHi : (layout.split k pair node).hi pair.second = layout.hi node := by
      simp [split, cuts.ne.symm]
    cases k with
    | zero =>
      obtain ⟨front, -, back⟩ := joined.leaf valid cuts
      intro other mem
      rcases mem_pair.mp mem with rfl | rfl
      · simpa only [NodeOk, Leaf, apart.first_keys, firstLo, firstHi] using front
      · simpa only [NodeOk, Leaf, apart.second_keys, secondLo, secondHi] using back
    | succ k =>
      obtain ⟨front, -, back, firstTiles, secondTiles⟩ := joined.inner valid cuts
      -- the children themselves keep their intervals
      have same : ∀ child ∈ layout.kids node,
          (layout.split (k + 1) pair node).span child = layout.span child := fun child kid =>
        split_span_else (cuts.other_level joined valid (valid.kid_mem (joined.mem valid) kid) (by omega))
      rw [joined.own_kids (Nat.succ_pos k)] at same
      intro other mem
      rcases mem_pair.mp mem with rfl | rfl
      · simp only [NodeOk, Inner, apart.first_keys, apart.first_kids (Nat.succ_pos k), firstLo, firstHi]
        grind [map_congr_left]
      · simp only [NodeOk, Inner, apart.second_keys, apart.second_kids (Nat.succ_pos k), secondLo, secondHi]
        grind [map_congr_left]

theorem merge_joined (valid : layout.Valid) (apart : layout.Apart k pair) :
    (layout.merge k pair).Joined k pair pair.first := by
  have notFirst : pair.parent ≠ pair.first := fun same =>
    valid.apart k (k + 1) (by omega) pair.first (apart.first_mem valid) (same ▸ apart.parent_mem)
  constructor
  · simpa [merge] using apart.parent_mem
  all_goals simp [merge, notFirst, apart.left_length]

theorem merge_edit (valid : layout.Valid) (apart : layout.Apart k pair) :
    Edit layout (layout.merge k pair) k pair.parent pair.left [pair.first, pair.second] [pair.first]
      pair.right pair.lower [pair.cut] [] pair.upper := by
  have joined := merge_joined valid apart
  obtain ⟨firstLo, firstHi, secondLo, secondHi⟩ := apart.span valid
  have spanElse : ∀ other ≠ pair.first, (layout.merge k pair).span other = layout.span other := by
    intro other outside
    simp [merge, Layout.span, outside]
  constructor
  · rfl
  · rfl
  · exact apart.parent_mem
  · simp [merge]
  · exact fun j ne => update_of_ne ne _ _
  · grind
  · exact nodup_singleton _
  · exact apart.kids
  · exact joined.kids
  · exact apart.keys
  · exact joined.keys
  · exact apart.left_length
  · rfl
  · simp [merge, Layout.span, gaps, firstLo, secondHi]
  · exact Within.nil _ _
  · intro other outside notParent
    simp only [mem_singleton] at outside
    simp [merge, outside, notParent]
  · grind
  · intro inner
    simp [joined.own_kids inner, apart.first_kids inner, apart.second_kids inner]
  · intro other mem
    obtain rfl := mem_singleton.mp mem
    have lo : (layout.merge k pair).lo pair.first = layout.lo pair.first := rfl
    have hi : (layout.merge k pair).hi pair.first = layout.hi pair.second := by simp [merge]
    have inside : layout.lo pair.first < (pair.cut : WithBot κ) ∧ (pair.cut : WithTop κ) < layout.hi pair.second := by
      have within := (valid.inner apart.parent_mem).1
      rw [apart.keys, firstLo, secondHi] at *
      exact within.middle
    cases k with
    | zero =>
      have front := valid.leaf (apart.first_mem valid)
      have back := valid.leaf (apart.second_mem valid)
      simp only [Leaf, apart.first_keys, apart.second_keys, firstHi, secondLo] at front back
      simp only [NodeOk, Leaf, joined.own_keys, lo, hi]
      exact front.join back inside
    | succ k =>
      obtain ⟨front, firstTiles⟩ := valid.inner (apart.first_mem valid)
      obtain ⟨back, secondTiles⟩ := valid.inner (apart.second_mem valid)
      simp only [apart.first_keys, apart.second_keys, firstHi, secondLo] at front back firstTiles secondTiles
      have same : ∀ child ∈ layout.kids pair.first ++ layout.kids pair.second,
          (layout.merge (k + 1) pair).span child = layout.span child := by
        intro child kid
        apply spanElse
        rintro rfl
        have mem : pair.first ∈ layout.nodes k := by
          rcases mem_append.mp kid with kid | kid
          · exact valid.kid_mem (apart.first_mem valid) kid
          · exact valid.kid_mem (apart.second_mem valid) kid
        exact valid.apart k (k + 1) (by omega) pair.first mem (apart.first_mem valid)
      rw [apart.first_kids (Nat.succ_pos k), apart.second_kids (Nat.succ_pos k)] at *
      simp only [NodeOk, Inner, joined.own_keys, joined.own_kids (Nat.succ_pos k), joinKeys, lo, hi]
      grind [within_cons_iff, map_congr_left, gaps_append_cons]

/-- Join two neighbours and cut them elsewhere. -/
def rotate (layout : Layout α κ) (k : Nat) (pair : Pair α κ) (firstKids secondKids : List α)
    (firstKeys secondKeys : List κ) (cut : κ) : Layout α κ :=
  (layout.merge k pair).split k (pair.hold firstKids secondKids firstKeys secondKeys cut) pair.first

section Rotating

variable {firstKids secondKids : List α} {firstKeys secondKeys : List κ} {cut : κ}

section

variable (valid : layout.Valid) (apart : layout.Apart k pair)
    (reparts : Reparts k pair firstKids secondKids firstKeys secondKeys cut)
include valid apart reparts

theorem merge_joined_hold :
    (layout.merge k pair).Joined k (pair.hold firstKids secondKids firstKeys secondKeys cut) pair.first := by
  have joined := merge_joined valid apart
  exact ⟨joined.parent_mem, joined.kids, joined.keys, joined.left_length,
    joined.own_keys.trans reparts.keys.symm, fun inner => (joined.own_kids inner).trans (reparts.kids inner).symm⟩

theorem merge_cuts_hold :
    (layout.merge k pair).Cuts k (pair.hold firstKids secondKids firstKeys secondKeys cut) pair.first := by
  refine ⟨apart.ne valid, Or.inl rfl, Or.inr fun j mem => ?_, reparts.leaf, reparts.inner⟩
  rcases (merge_edit valid apart).mem_after valid mem with ⟨-, inside⟩ | ⟨-, outside, -⟩
  · exact apart.ne valid (mem_singleton.mp inside).symm
  · exact outside (by simp [Pair.hold])

theorem rotate_valid : (layout.rotate k pair firstKids secondKids firstKeys secondKeys cut).Valid :=
  (split_edit ((merge_edit valid apart).valid valid) (merge_joined_hold valid apart reparts)
    (merge_cuts_hold valid apart reparts)).valid ((merge_edit valid apart).valid valid)

theorem rotate_apart : (layout.rotate k pair firstKids secondKids firstKeys secondKeys cut).Apart k
      (pair.hold firstKids secondKids firstKeys secondKeys cut) :=
  split_apart ((merge_edit valid apart).valid valid) (merge_joined_hold valid apart reparts)
    (merge_cuts_hold valid apart reparts)

end

omit [LinearOrder κ] in
theorem rotate_else (outside : node ≠ pair.first ∧ node ≠ pair.second ∧ node ≠ pair.parent) :
    (layout.rotate k pair firstKids secondKids firstKeys secondKeys cut).kids node = layout.kids node ∧
      (layout.rotate k pair firstKids secondKids firstKeys secondKeys cut).keys node = layout.keys node := by
  obtain ⟨notFirst, notSecond, notParent⟩ := outside
  simp [rotate, split, merge, Pair.hold, notFirst, notSecond, notParent]

theorem rotate_nodes (valid : layout.Valid) (apart : layout.Apart k pair)
    (reparts : Reparts k pair firstKids secondKids firstKeys secondKeys cut) :
    (layout.rotate k pair firstKids secondKids firstKeys secondKeys cut).nodes = layout.nodes := by
  have merged := merge_edit valid apart
  have valid' := merged.valid valid
  have parted := split_edit valid' (merge_joined_hold valid apart reparts) (merge_cuts_hold valid apart reparts)
  obtain ⟨front, back, before, between⟩ := merged.window valid
  obtain ⟨front', back', between', after⟩ := parted.window valid'
  funext j
  by_cases here : j = k
  · subst here
    have distinct := valid'.nodup j
    rw [between] at distinct between'
    -- the joined node occurs once, so both windows are around the same place
    have same : front = front' ∧ back = back' := by
      rw [append_assoc, append_assoc, append_eq_append_iff] at between'
      simp only [nodup_append, mem_append, mem_singleton] at distinct
      rcases between' with ⟨rest, front_eq, back_eq⟩ | ⟨rest, front_eq, back_eq⟩
      · cases rest with
        | nil => simpa using And.intro front_eq.symm back_eq
        | cons head tail =>
          grind
      · cases rest with
        | nil => simpa using And.intro front_eq back_eq.symm
        | cons head tail =>
          grind
    rw [before, same.1, same.2]
    exact after
  · exact (parted.nodes_else j here).trans (merged.nodes_else j here)

end Rotating

end Cutting

end Layout

end BlockchainPG.Lib
