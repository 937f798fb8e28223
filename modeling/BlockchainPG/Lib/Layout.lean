import BlockchainPG.Lib.Gaps
import Mathlib.Data.List.Nodup
import Mathlib.Data.List.Pairwise

/-! Multiway search trees described level by level, and their edits. -/

namespace BlockchainPG.Lib

open Function List

/-- The nodes of a tree level by level, level zero being the leaves. -/
structure Layout (α : Type u) (κ : Type v) where
  level : Nat
  root : α
  nodes : Nat → List α
  kids : α → List α
  keys : α → List κ
  lo : α → WithBot κ
  hi : α → WithTop κ

namespace Layout

variable {α : Type u} {κ : Type v}

def span (layout : Layout α κ) (node : α) : WithBot κ × WithTop κ := (layout.lo node, layout.hi node)

variable [LinearOrder κ]

def Inner (layout : Layout α κ) (node : α) : Prop :=
  Within (layout.lo node) (layout.keys node) (layout.hi node) ∧
    (layout.kids node).map layout.span = gaps (layout.lo node) (layout.keys node) (layout.hi node)

def Leaf (layout : Layout α κ) (node : α) : Prop :=
  WithinLeaf (layout.lo node) (layout.keys node) (layout.hi node)

def NodeOk (layout : Layout α κ) : Nat → α → Prop
  | 0 => layout.Leaf
  | _ + 1 => layout.Inner

/-- Each level lists the children of the level above, no node occurs twice,
and keys are ordered by the intervals of their nodes. -/
structure Valid (layout : Layout α κ) : Prop where
  top : layout.nodes layout.level = [layout.root]
  above : ∀ k, layout.level < k → layout.nodes k = []
  flat : ∀ k < layout.level, layout.nodes k = (layout.nodes (k + 1)).flatMap layout.kids
  nodup : ∀ k, (layout.nodes k).Nodup
  apart : ∀ j k, j ≠ k → ∀ node ∈ layout.nodes j, node ∉ layout.nodes k
  ok : ∀ k, ∀ node ∈ layout.nodes k, layout.NodeOk k node
  lo_root : layout.lo layout.root = ⊥
  hi_root : layout.hi layout.root = ⊤

variable {layout : Layout α κ}

section

variable (valid : layout.Valid)
include valid

theorem Valid.root_mem : layout.root ∈ layout.nodes layout.level := by
  simp [valid.top]

theorem Valid.level_le (mem : node ∈ layout.nodes k) : k ≤ layout.level := by
  by_contra high
  simp [valid.above k (by omega)] at mem

theorem Valid.inner (mem : node ∈ layout.nodes (k + 1)) : layout.Inner node := valid.ok (k + 1) node mem

theorem Valid.leaf (mem : node ∈ layout.nodes 0) : layout.Leaf node := valid.ok 0 node mem

theorem Valid.kid_mem (mem : node ∈ layout.nodes (k + 1))
    (kid : child ∈ layout.kids node) : child ∈ layout.nodes k := by
  grind [level_le, flat]

theorem Valid.kids_nodup (mem : node ∈ layout.nodes (k + 1)) : (layout.kids node).Nodup := by
  have high := valid.level_le mem
  have distinct := valid.nodup k
  grind [flat]

theorem Valid.parent_unique (first : a ∈ layout.nodes (k + 1))
    (second : b ∈ layout.nodes (k + 1)) (left : child ∈ layout.kids a) (right : child ∈ layout.kids b) : a = b := by
  by_contra ne
  have high := valid.level_le first
  have distinct := valid.nodup k
  rw [valid.flat k (by omega)] at distinct
  have disjoint := (nodup_flatMap.mp distinct).2
  have symmetric : Std.Symm (onFun List.Disjoint layout.kids) := ⟨fun _ _ apart _ here there => apart there here⟩
  exact disjoint.forall first second ne left right

theorem Valid.parent_eq (first : a ∈ layout.nodes (j + 1))
    (second : b ∈ layout.nodes (k + 1)) (left : child ∈ layout.kids a) (right : child ∈ layout.kids b) : a = b := by
  by_cases level : j = k
  · grind [parent_unique]
  · exact absurd (valid.kid_mem second right) (valid.apart j k level child (valid.kid_mem first left))

theorem Valid.root_notKid (mem : node ∈ layout.nodes (k + 1)) : layout.root ∉ layout.kids node := fun kid => by
  have high := valid.level_le mem
  exact valid.apart k layout.level (by omega) _ (valid.kid_mem mem kid) valid.root_mem

theorem Valid.exists_parent (mem : node ∈ layout.nodes k)
    (lower : k < layout.level) : ∃ parent ∈ layout.nodes (k + 1), node ∈ layout.kids parent := by
  grind [flat]

theorem Valid.kids_window (mem : node ∈ layout.nodes (k + 1)) :
    ∃ front back, layout.nodes k = front ++ layout.kids node ++ back := by
  have high := valid.level_le mem
  obtain ⟨pre, post, split⟩ := append_of_mem mem
  refine ⟨pre.flatMap layout.kids, post.flatMap layout.kids, ?_⟩
  rw [valid.flat k (by omega), split]
  simp

end

theorem Inner.length (inner : layout.Inner node) : (layout.kids node).length = (layout.keys node).length + 1 := by
  have same := congrArg List.length inner.2
  simpa using same

/-- The intervals around a run of children: those before it end at separators,
those behind it start at separators. -/
theorem Inner.window (inner : layout.Inner node)
    (kids : layout.kids node = left ++ run ++ right) (keys : layout.keys node = lower ++ middle ++ upper)
    (leftLength : left.length = lower.length) (runLength : run.length = middle.length + 1) :
    left.map layout.span = lowerGaps (layout.lo node) lower ∧ run.map layout.span =
        gaps (lastBound (layout.lo node) lower) middle (firstBound upper (layout.hi node)) ∧
      right.map layout.span = upperGaps upper (layout.hi node) := by
  have tiles := inner.2
  rw [kids, keys, gaps_window] at tiles
  simp only [map_append] at tiles
  have size := congrArg List.length inner.2
  simp only [kids, keys, length_map, length_append, gaps_length] at size
  obtain ⟨front, rightTiles⟩ := append_inj tiles (by simp; omega)
  obtain ⟨leftTiles, runTiles⟩ := append_inj front (by simp [leftLength])
  exact ⟨leftTiles, runTiles, rightTiles⟩

/-- `after` is `before` with the run `old` of children of one node replaced by
the run `new`, and the separators `middle` inside the run by `cuts`. The new
run covers the same interval and has the same children below it. -/
structure Edit (before after : Layout α κ) (k : Nat) (parent : α) (left old new right : List α)
    (lower middle cuts upper : List κ) : Prop where
  level : after.level = before.level
  root : after.root = before.root
  parent_mem : parent ∈ before.nodes (k + 1)
  nodes_here : after.nodes k = (before.nodes (k + 1)).flatMap after.kids
  nodes_else : ∀ j ≠ k, after.nodes j = before.nodes j
  known : ∀ node ∈ new, node ∈ old ∨ ∀ j, node ∉ before.nodes j
  distinct : new.Nodup
  kids_before : before.kids parent = left ++ old ++ right
  kids_after : after.kids parent = left ++ new ++ right
  keys_before : before.keys parent = lower ++ middle ++ upper
  keys_after : after.keys parent = lower ++ cuts ++ upper
  left_length : left.length = lower.length
  old_length : old.length = middle.length + 1
  spans : new.map after.span = gaps (lastBound (before.lo parent) lower) cuts (firstBound upper (before.hi parent))
  cuts_within : Within (lastBound (before.lo parent) lower) cuts (firstBound upper (before.hi parent))
  content_else : ∀ node ∉ new, node ≠ parent → after.kids node = before.kids node ∧ after.keys node = before.keys node
  span_else : ∀ node ∉ new, after.span node = before.span node
  below : 0 < k → new.flatMap after.kids = old.flatMap before.kids
  ok : ∀ node ∈ new, after.NodeOk k node

section Edit

variable {before after : Layout α κ} {parent : α} {left old new right : List α}
  {lower middle cuts upper : List κ}

section

variable (edit : Edit before after k parent left old new right lower middle cuts upper) (valid : before.Valid)
include edit valid

theorem Edit.old_mem (mem : node ∈ old) : node ∈ before.nodes k :=
  valid.kid_mem edit.parent_mem (by simp [edit.kids_before, mem])

theorem Edit.new_level (mem : node ∈ new) (present : node ∈ before.nodes j) : j = k ∧ node ∈ old := by
  rcases edit.known node mem with known | fresh
  · refine ⟨?_, known⟩
    by_contra ne
    exact valid.apart j k ne node present (edit.old_mem valid known)
  · exact absurd present (fresh j)

theorem Edit.parent_notMem : parent ∉ new := fun mem => by
  have := (edit.new_level valid mem edit.parent_mem).1
  omega

theorem Edit.kid_notMem (mem : node ∈ before.nodes (j + 1)) (ne : node ≠ parent)
    (kid : child ∈ before.kids node) : child ∉ new := fun inside => by
  obtain ⟨rfl, known⟩ := edit.new_level valid inside (valid.kid_mem mem kid)
  exact ne (valid.parent_unique mem edit.parent_mem kid (by simp [edit.kids_before, known]))

theorem Edit.kids_else (mem : node ∈ before.nodes (j + 1)) (elsewhere : j + 1 ≠ k)
    (ne : node ≠ parent) : after.kids node = before.kids node :=
  (edit.content_else node (fun inside => elsewhere (edit.new_level valid inside mem).1) ne).1

theorem Edit.window : ∃ front back, before.nodes k = front ++ old ++ back ∧ after.nodes k = front ++ new ++ back := by
  obtain ⟨pre, post, split⟩ := append_of_mem edit.parent_mem
  have high := valid.level_le edit.parent_mem
  have same : ∀ node ∈ pre ++ post, after.kids node = before.kids node := by
    grind [Valid.nodup, kids_else]
  refine ⟨pre.flatMap before.kids ++ left, right ++ post.flatMap before.kids, ?_, ?_⟩
  · rw [valid.flat k (by omega), split]
    simp [edit.kids_before]
  · grind [nodes_here, kids_after, flatMap_congr]

theorem Edit.mem_after (mem : node ∈ after.nodes j) :
    (j = k ∧ node ∈ new) ∨ (node ∈ before.nodes j ∧ node ∉ old ∧ node ∉ new) := by
  by_cases here : j = k
  · subst here
    obtain ⟨front, back, oldNodes, newNodes⟩ := edit.window valid
    grind [Valid.nodup]
  · rw [edit.nodes_else j here] at mem
    exact Or.inr ⟨mem, fun known => valid.apart j k here node mem (edit.old_mem valid known),
      fun inside => here (edit.new_level valid inside mem).1⟩

end

theorem NodeOk.congr (ok : before.NodeOk k node) (kids : after.kids node = before.kids node)
    (keys : after.keys node = before.keys node) (span : after.span node = before.span node)
    (spans : 0 < k → ∀ child ∈ before.kids node, after.span child = before.span child) : after.NodeOk k node := by
  simp only [Layout.span, Prod.mk.injEq] at span
  cases k with
  | zero => simpa [NodeOk, Leaf, keys, span.1, span.2] using ok
  | succ k =>
    have same : (before.kids node).map after.span = (before.kids node).map before.span :=
      map_congr_left (spans (Nat.succ_pos k))
    simpa [NodeOk, Inner, kids, keys, span.1, span.2, same] using ok

theorem Edit.parent_ok (edit : Edit before after k parent left old new right lower middle cuts upper)
    (valid : before.Valid) : after.NodeOk (k + 1) parent := by
  have within := (valid.inner edit.parent_mem).1
  have span := edit.span_else parent (edit.parent_notMem valid)
  simp only [Layout.span, Prod.mk.injEq] at span
  obtain ⟨leftTiles, -, rightTiles⟩ := (valid.inner edit.parent_mem).window edit.kids_before
    edit.keys_before edit.left_length edit.old_length
  have outside : ∀ child ∈ left ++ right, after.span child = before.span child := by
    intro child mem
    apply edit.span_else
    intro inside
    have kidsNodup := valid.kids_nodup edit.parent_mem
    rw [edit.kids_before] at kidsNodup
    have known := (edit.new_level valid inside
      (valid.kid_mem edit.parent_mem (by rw [edit.kids_before]; grind))).2
    grind
  refine ⟨?_, ?_⟩
  · rw [edit.keys_before] at within
    rw [span.1, span.2, edit.keys_after]
    exact within.window edit.cuts_within
  · rw [span.1, span.2, edit.keys_after, edit.kids_after, gaps_window]
    grind [spans, map_congr_left]

theorem Edit.valid (edit : Edit before after k parent left old new right lower middle cuts upper)
    (valid : before.Valid) : after.Valid := by
  have high := valid.level_le edit.parent_mem
  obtain ⟨front, back, old_nodes, new_nodes⟩ := edit.window valid
  have distinct := valid.nodup k
  rw [old_nodes] at distinct
  have parentNew := edit.parent_notMem valid
  -- the untouched nodes of the edited level
  have outside : ∀ node ∈ front ++ back, node ∈ before.nodes k ∧ node ∉ new ∧ node ≠ parent := by
    intro node mem
    have present : node ∈ before.nodes k := by rw [old_nodes]; grind
    refine ⟨present, fun inside => ?_, ?_⟩
    · grind [new_level]
    · rintro rfl
      exact valid.apart k (k + 1) (by omega) node present edit.parent_mem
  have elsewhere : ∀ j ≠ k, ∀ node ∈ before.nodes j, node ∉ new :=
    fun j ne node mem inside => ne (edit.new_level valid inside mem).1
  constructor
  · rw [edit.level, edit.nodes_else _ (by omega), edit.root, valid.top]
  · intro j above
    rw [edit.level] at above
    rw [edit.nodes_else j (by omega), valid.above j above]
  · intro j below
    rw [edit.level] at below
    by_cases here : j = k
    · subst here
      rw [edit.nodes_else (j + 1) (by omega), edit.nodes_here]
    · rw [edit.nodes_else j here, valid.flat j below]
      by_cases next : j + 1 = k
      · grind [below, flatMap_congr, content_else]
      · rw [edit.nodes_else (j + 1) next]
        refine flatMap_congr fun node mem => ?_
        refine (edit.kids_else valid mem next ?_).symm
        rintro rfl
        exact valid.apart (j + 1) (k + 1) (by omega) node mem edit.parent_mem
  · intro j
    by_cases here : j = k
    · grind [distinct]
    · rw [edit.nodes_else j here]
      exact valid.nodup j
  · intro i j ne node mem present
    by_cases first : i = k
    · subst first
      rw [edit.nodes_else j ne.symm] at present
      grind [Valid.apart]
    · rw [edit.nodes_else i first] at mem
      by_cases second : j = k
      · grind [Valid.apart]
      · rw [edit.nodes_else j second] at present
        exact valid.apart i j ne node mem present
  · intro j node mem
    by_cases own : node ∈ new
    · by_cases here : j = k
      · subst here
        exact edit.ok node own
      · rw [edit.nodes_else j here] at mem
        exact absurd own (elsewhere j here node mem)
    · have present : node ∈ before.nodes j := by
        grind [nodes_else]
      by_cases same : node = parent
      · subst same
        have level : j = k + 1 := by
          by_contra ne
          exact valid.apart j (k + 1) ne node present edit.parent_mem
        subst level
        exact edit.parent_ok valid
      · obtain ⟨kids, keys⟩ := edit.content_else node own same
        refine (valid.ok j node present).congr kids keys (edit.span_else node own) ?_
        intro inner child kid
        obtain ⟨i, rfl⟩ : ∃ i, j = i + 1 := ⟨j - 1, by omega⟩
        exact edit.span_else child (edit.kid_notMem valid present same kid)
  · have span := edit.span_else before.root (elsewhere before.level (by omega) _ valid.root_mem)
    rw [edit.root]
    exact (congrArg Prod.fst span).trans valid.lo_root
  · have span := edit.span_else before.root (elsewhere before.level (by omega) _ valid.root_mem)
    rw [edit.root]
    exact (congrArg Prod.snd span).trans valid.hi_root

end Edit

def setKeys [DecidableEq α] (layout : Layout α κ) (node : α) (keys : List κ) : Layout α κ :=
  { layout with keys := update layout.keys node keys }

theorem Valid.setKeys [DecidableEq α] {leaf : α} {keys : List κ} (valid : layout.Valid)
    (mem : leaf ∈ layout.nodes 0) (within : WithinLeaf (layout.lo leaf) keys (layout.hi leaf)) :
    (layout.setKeys leaf keys).Valid where
  top := valid.top
  above := valid.above
  flat := valid.flat
  nodup := valid.nodup
  apart := valid.apart
  ok k node present := by
    by_cases same : node = leaf
    · subst same
      have bottom : k = 0 := by
        by_contra ne
        exact valid.apart k 0 ne node present mem
      subst bottom
      simpa [NodeOk, Leaf, Layout.setKeys] using within
    · have kept : (layout.setKeys leaf keys).keys node = layout.keys node := update_of_ne same _ _
      exact (valid.ok k node present).congr rfl kept rfl fun _ _ _ => rfl
  lo_root := valid.lo_root
  hi_root := valid.hi_root

/-- Put a new root with the old one as its only child on top. -/
def raise [DecidableEq α] (layout : Layout α κ) (root : α) : Layout α κ where
  level := layout.level + 1
  root := root
  nodes := update layout.nodes (layout.level + 1) [root]
  kids := update layout.kids root [layout.root]
  keys := update layout.keys root []
  lo := update layout.lo root ⊥
  hi := update layout.hi root ⊤

theorem Valid.raise [DecidableEq α] {root : α} (valid : layout.Valid) (fresh : ∀ k, root ∉ layout.nodes k) :
    (layout.raise root).Valid := by
  have other : ∀ k, ∀ node ∈ layout.nodes k, node ≠ root := fun k node mem same => fresh k (same ▸ mem)
  have below : ∀ k ≠ layout.level + 1, (layout.raise root).nodes k = layout.nodes k :=
    fun k ne => update_of_ne ne _ _
  have atop : (layout.raise root).nodes (layout.level + 1) = [root] := update_self ..
  have kids : ∀ k, ∀ node ∈ layout.nodes k, (layout.raise root).kids node = layout.kids node :=
    fun k node mem => update_of_ne (other k node mem) _ _
  have span : ∀ k, ∀ node ∈ layout.nodes k, (layout.raise root).span node = layout.span node := by
    intro k node mem
    simp [Layout.span, Layout.raise, update_of_ne (other k node mem)]
  have empty := valid.above (layout.level + 1) (Nat.lt_succ_self _)
  constructor
  · exact atop
  · intro k high
    have : layout.level + 1 < k := high
    rw [below k (by omega), valid.above k (by omega)]
  · intro k low
    have low : k < layout.level + 1 := low
    by_cases last : k = layout.level
    · subst last
      rw [below _ (by omega), atop, valid.top]
      simp [Layout.raise]
    · grind [flat, flatMap_congr]
  · grind [nodup]
  · grind [apart]
  · intro k node mem
    by_cases top : k = layout.level + 1
    · subst top
      rw [atop] at mem
      obtain rfl := mem_singleton.mp mem
      have span := span layout.level layout.root valid.root_mem
      refine ⟨?_, ?_⟩
      · simpa [Layout.raise] using Within.nil (κ := κ) ⊥ ⊤
      · have own : (layout.raise node).kids node = [layout.root] := update_self ..
        rw [own, map_singleton, span]
        simp [gaps, Layout.span, valid.lo_root, valid.hi_root, Layout.raise]
    · rw [below k top] at mem
      refine (valid.ok k node mem).congr (kids k node mem)
        (update_of_ne (other k node mem) _ _) (span k node mem) ?_
      intro inner child kid
      obtain ⟨i, rfl⟩ : ∃ i, k = i + 1 := ⟨k - 1, by omega⟩
      exact span i child (valid.kid_mem mem kid)
  · simp [Layout.raise]
  · simp [Layout.raise]

def drop (layout : Layout α κ) (root : α) : Layout α κ :=
  { layout with
    level := layout.level - 1
    root := root
    nodes := update layout.nodes layout.level [] }

theorem Valid.drop (valid : layout.Valid) (inner : 0 < layout.level)
    (only : layout.kids layout.root = [child]) : (layout.drop child).Valid := by
  obtain ⟨level, same⟩ : ∃ level, layout.level = level + 1 := ⟨layout.level - 1, by omega⟩
  have below : ∀ k ≠ level + 1, (layout.drop child).nodes k = layout.nodes k :=
    fun k ne => update_of_ne (by omega) _ _
  have atop : (layout.drop child).nodes (level + 1) = [] := by
    rw [← same]
    exact update_self ..
  have now : (layout.drop child).level = level := by simp [Layout.drop, same]
  have subset : ∀ k, ∀ node ∈ (layout.drop child).nodes k, node ∈ layout.nodes k := by
    grind
  have root_mem : layout.root ∈ layout.nodes (level + 1) := same ▸ valid.root_mem
  have tiles := (valid.inner root_mem).2
  rw [only] at tiles
  have alone : layout.nodes level = [child] := by
    grind [flat, top]
  have bounds : layout.lo child = ⊥ ∧ layout.hi child = ⊤ := by
    grind [gaps_length, lo_root, hi_root, span, gaps]
  constructor
  · rw [now, below level (by omega), alone]
    rfl
  · grind [above]
  · intro k low
    rw [now] at low
    rw [below k (by omega), below (k + 1) (by omega), valid.flat k (by omega)]
    rfl
  · grind [nodup]
  · grind [apart]
  · exact fun k node mem => (valid.ok k node (subset k node mem)).congr rfl rfl rfl fun _ _ _ => rfl
  · exact bounds.1
  · exact bounds.2

def single (root : α) (keys : List κ) : Layout α κ where
  level := 0
  root := root
  nodes := update (fun _ => []) 0 [root]
  kids := fun _ => []
  keys := fun _ => keys
  lo := fun _ => ⊥
  hi := fun _ => ⊤

omit [LinearOrder κ] in
theorem single_mem {root : α} {keys : List κ} (mem : node ∈ (single root keys).nodes k) : k = 0 ∧ node = root := by
  by_cases bottom : k = 0
  · subst bottom
    exact ⟨rfl, by simpa [single] using mem⟩
  · simp [single, bottom] at mem

theorem single_valid {keys : List κ} (root : α) (sorted : keys.Pairwise (· < ·)) : (single root keys).Valid where
  top := by simp [single]
  above k high := by simp [single, Nat.pos_iff_ne_zero.mp high]
  flat k low := absurd low (Nat.not_lt_zero k)
  nodup k := by
    by_cases bottom : k = 0
    · simp [single, bottom]
    · simp [single, bottom]
  apart j k ne node mem present :=
    ne ((single_mem mem).1.trans (single_mem present).1.symm)
  ok k node mem := by
    obtain ⟨rfl, -⟩ := single_mem mem
    exact ⟨sorted, fun key _ => ⟨bot_le, WithTop.coe_lt_top key⟩⟩
  lo_root := rfl
  hi_root := rfl

end Layout

end BlockchainPG.Lib
