import BlockchainPG.Lib.Siblings

/-! Looking a key up in a layout. -/

namespace BlockchainPG.Lib

open List Function

section Gaps

variable {κ : Type u}

theorem gaps_getElem? (lo : WithBot κ) (keys : List κ) (hi : WithTop κ) (inside : i ≤ keys.length) :
    (gaps lo keys hi)[i]? = some (lastBound lo (keys.take i), firstBound (keys.drop i) hi) := by
  have window := gaps_window lo (keys.take i) [] (keys.drop i) hi
  rw [append_nil, take_append_drop] at window
  rw [window, append_assoc, getElem?_append_right (by simp)]
  simp [gaps, Nat.min_eq_left inside]

variable [LinearOrder κ]

theorem lastBound_le_iff {lo : WithBot κ} {keys : List κ} {key : κ} (sorted : keys.Pairwise (· < ·))
    (low : ∀ other ∈ keys, lo ≤ (other : WithBot κ)) :
    lastBound lo keys ≤ (key : WithBot κ) ↔ lo ≤ (key : WithBot κ) ∧ ∀ other ∈ keys, other ≤ key := by
  constructor
  · intro bounded
    refine ⟨?_, fun other mem => WithBot.coe_le_coe.mp ((le_lastBound sorted other mem).trans bounded)⟩
    rcases lastBound_mem_or lo keys with ⟨-, same⟩ | ⟨last, mem, same⟩
    · exact same ▸ bounded
    · exact (low last mem).trans (same ▸ bounded)
  · rintro ⟨above, all⟩
    rcases lastBound_mem_or lo keys with ⟨-, same⟩ | ⟨last, mem, same⟩
    · exact same.trans_le above
    · exact same.trans_le (WithBot.coe_le_coe.mpr (all last mem))

theorem lt_firstBound_iff {hi : WithTop κ} {keys : List κ} {key : κ} (sorted : keys.Pairwise (· < ·))
    (high : ∀ other ∈ keys, (other : WithTop κ) ≤ hi) :
    (key : WithTop κ) < firstBound keys hi ↔ (key : WithTop κ) < hi ∧ ∀ other ∈ keys, key < other := by
  constructor
  · intro bounded
    refine ⟨?_, fun other mem => WithTop.coe_lt_coe.mp (bounded.trans_le (firstBound_le sorted other mem))⟩
    rcases firstBound_mem_or keys hi with ⟨-, same⟩ | ⟨first, mem, same⟩
    · exact same ▸ bounded
    · exact (same ▸ bounded).trans_le (high first mem)
  · rintro ⟨below, all⟩
    rcases firstBound_mem_or keys hi with ⟨-, same⟩ | ⟨first, mem, same⟩
    · exact below.trans_eq same.symm
    · exact (WithTop.coe_lt_coe.mpr (all first mem)).trans_eq same.symm

end Gaps

namespace Layout

variable {α : Type u} {κ : Type v} [LinearOrder κ] {layout : Layout α κ} {key : κ}

/-- The key lies in the interval the node answers for. -/
def Covers (layout : Layout α κ) (node : α) (key : κ) : Prop :=
  layout.lo node ≤ (key : WithBot κ) ∧ (key : WithTop κ) < layout.hi node

theorem Valid.root_covers (valid : layout.Valid) (key : κ) : layout.Covers layout.root key := by
  simp [Covers, valid.lo_root, valid.hi_root]

theorem Leaf.covers (leaf : layout.Leaf node) (mem : key ∈ layout.keys node) : layout.Covers node key :=
  leaf.2 key mem

theorem Inner.child_covers (inner : layout.Inner node) (kid : (layout.kids node)[i]? = some child) :
    layout.Covers child key ↔ layout.Covers node key ∧
      (∀ other ∈ (layout.keys node).take i, other ≤ key) ∧ ∀ other ∈ (layout.keys node).drop i, key < other := by
  obtain ⟨within, tiles⟩ := inner
  have size := congrArg List.length tiles
  have inside : i < (layout.kids node).length := (List.getElem?_eq_some_iff.mp kid).1
  rw [length_map, gaps_length] at size
  have span := congrArg (fun list => list[i]?) tiles
  simp only [getElem?_map, kid, Option.map_some, gaps_getElem? _ _ _ (by omega : i ≤ (layout.keys node).length),
    Layout.span, Option.some.injEq, Prod.mk.injEq] at span
  have sorted := within.1
  rw [Covers, span.1, span.2, lastBound_le_iff (sorted.sublist (take_sublist i _))
      fun other mem => (within.2 other (mem_of_mem_take mem)).1.le,
    lt_firstBound_iff (sorted.sublist (drop_sublist i _))
      fun other mem => (within.2 other (mem_of_mem_drop mem)).2.le, Covers]
  tauto

theorem Inner.covers_unique {i j : Nat} (inner : layout.Inner node) (left : (layout.kids node)[i]? = some a)
    (right : (layout.kids node)[j]? = some b) (first : layout.Covers a key) (second : layout.Covers b key) :
    i = j := by
  have size := Inner.length inner
  have insideLeft : i < (layout.kids node).length := (List.getElem?_eq_some_iff.mp left).1
  have insideRight : j < (layout.kids node).length := (List.getElem?_eq_some_iff.mp right).1
  obtain ⟨-, below, above⟩ := (inner.child_covers left).mp first
  obtain ⟨-, lower, upper⟩ := (inner.child_covers right).mp second
  rcases Nat.lt_trichotomy i j with less | same | more
  · have mem : (layout.keys node)[i] ∈ (layout.keys node).drop i :=
      mem_drop_iff_getElem.mpr ⟨0, by omega, by simp⟩
    grind [mem_take_iff_getElem, not_lt]
  · exact same
  · have mem : (layout.keys node)[j] ∈ (layout.keys node).drop j :=
      mem_drop_iff_getElem.mpr ⟨0, by omega, by simp⟩
    grind [mem_take_iff_getElem, not_lt]

theorem Valid.covers_unique (valid : layout.Valid) (first : a ∈ layout.nodes k) (second : b ∈ layout.nodes k)
    (left : layout.Covers a key) (right : layout.Covers b key) : a = b := by
  -- from the root downwards: the parents cover the key too, so they are the same node
  obtain ⟨depth, same⟩ : ∃ depth, layout.level = k + depth :=
    ⟨layout.level - k, by have := valid.level_le first; omega⟩
  induction depth generalizing k a b with
  | zero =>
    grind [top]
  | succ depth ih =>
    obtain ⟨p, pMem, pKid⟩ := valid.exists_parent first (by omega)
    obtain ⟨q, qMem, qKid⟩ := valid.exists_parent second (by omega)
    obtain ⟨i, iKid⟩ := getElem?_of_mem pKid
    obtain ⟨j, jKid⟩ := getElem?_of_mem qKid
    have pCovers := ((valid.inner pMem).child_covers iKid).mp left
    have qCovers := ((valid.inner qMem).child_covers jKid).mp right
    obtain rfl := ih pMem qMem pCovers.1 qCovers.1 (by omega)
    obtain rfl := (valid.inner pMem).covers_unique iKid jKid left right
    exact Option.some.inj (iKid.symm.trans jKid)

def leafKeys (layout : Layout α κ) : List κ := (layout.nodes 0).flatMap layout.keys

/-- A key is somewhere in the leaves just when the leaf that covers it has it. -/
theorem Valid.mem_leafKeys {leaf : α} (valid : layout.Valid) (mem : leaf ∈ layout.nodes 0)
    (covers : layout.Covers leaf key) : key ∈ layout.leafKeys ↔ key ∈ layout.keys leaf := by
  constructor
  · intro present
    obtain ⟨other, otherMem, own⟩ := mem_flatMap.mp present
    obtain rfl := valid.covers_unique mem otherMem covers ((valid.leaf otherMem).covers own)
    exact own
  · exact fun own => mem_flatMap.mpr ⟨leaf, mem, own⟩

/-- The nodes of a level cover increasing keys from left to right. -/
theorem Valid.nodes_ordered (valid : layout.Valid) (inside : k ≤ layout.level) :
    (layout.nodes k).Pairwise fun a b => ∀ x z, layout.Covers a x → layout.Covers b z → x < z := by
  induction inside using Nat.decreasingInduction with
  | self => simp [valid.top]
  | of_succ k low ih =>
    rw [valid.flat k low, pairwise_flatMap]
    constructor
    · intro parent mem
      have inner := valid.inner mem
      refine pairwise_iff_getElem.mpr fun i j insideI insideJ less x z first second => ?_
      obtain ⟨-, -, above⟩ := (inner.child_covers (getElem?_eq_getElem insideI)).mp first
      obtain ⟨-, below, -⟩ := (inner.child_covers (getElem?_eq_getElem insideJ)).mp second
      have size := Inner.length inner
      -- the separator behind the first child lies between the two
      have between : i < (layout.keys parent).length := by omega
      exact (above _ (mem_drop_iff_getElem.mpr ⟨0, by omega, by simp⟩)).trans_le
        (below (layout.keys parent)[i] (mem_take_iff_getElem.mpr ⟨i, by omega, rfl⟩))
    · refine ih.imp_of_mem fun first second ordered a own b other x z left right => ?_
      obtain ⟨i, slot⟩ := getElem?_of_mem own
      obtain ⟨j, place⟩ := getElem?_of_mem other
      exact ordered x z (((valid.inner first).child_covers slot).mp left).1
        (((valid.inner second).child_covers place).mp right).1

theorem Valid.leafKeys_sorted (valid : layout.Valid) : layout.leafKeys.Pairwise (· < ·) := by
  rw [leafKeys, pairwise_flatMap]
  refine ⟨fun leaf mem => (valid.leaf mem).1, ?_⟩
  refine (valid.nodes_ordered (Nat.zero_le _)).imp_of_mem fun first second ordered x own z other => ?_
  exact ordered x z ((valid.leaf first).covers own) ((valid.leaf second).covers other)

theorem Edit.leafKeys {before after : Layout α κ} {parent : α} {left old new right : List α}
    {lower middle cuts upper : List κ}
    (edit : Edit before after k parent left old new right lower middle cuts upper) (valid : before.Valid)
    (same : k = 0 → new.flatMap after.keys = old.flatMap before.keys) : after.leafKeys = before.leafKeys := by
  have valid' := edit.valid valid
  have kept : ∀ node ∈ before.nodes 0, node ∉ new → after.keys node = before.keys node := by
    intro node mem outside
    refine (edit.content_else node outside ?_).2
    rintro rfl
    exact valid.apart 0 (k + 1) (by omega) node mem edit.parent_mem
  by_cases bottom : k = 0
  · subst bottom
    obtain ⟨front, back, oldNodes, newNodes⟩ := edit.window valid
    grind [Valid.nodup, flatMap_congr, leafKeys]
  · have nodes := edit.nodes_else 0 (Ne.symm bottom)
    rw [Layout.leafKeys, Layout.leafKeys, nodes]
    refine flatMap_congr fun node mem => kept node mem fun inside => ?_
    exact bottom (edit.new_level valid inside mem).1.symm

section Cutting

variable [DecidableEq α] {pair : Pair α κ} {node : α}

theorem split_leafKeys (valid : layout.Valid) (joined : layout.Joined k pair node)
    (cuts : layout.Cuts k pair node) : (layout.split k pair node).leafKeys = layout.leafKeys := by
  refine (split_edit valid joined cuts).leafKeys valid ?_
  rintro rfl
  have apart := split_apart valid joined cuts
  simp [apart.first_keys, apart.second_keys, joined.own_keys, joinKeys]

theorem merge_leafKeys (valid : layout.Valid) (apart : layout.Apart k pair) :
    (layout.merge k pair).leafKeys = layout.leafKeys := by
  refine (merge_edit valid apart).leafKeys valid ?_
  rintro rfl
  simp [(merge_joined valid apart).own_keys, apart.first_keys, apart.second_keys, joinKeys]

theorem rotate_leafKeys (valid : layout.Valid) (apart : layout.Apart k pair)
    (reparts : Reparts k pair firstKids secondKids firstKeys secondKeys cut) :
    (layout.rotate k pair firstKids secondKids firstKeys secondKeys cut).leafKeys = layout.leafKeys :=
  (split_leafKeys ((merge_edit valid apart).valid valid) (merge_joined_hold valid apart reparts)
    (merge_cuts_hold valid apart reparts)).trans (merge_leafKeys valid apart)

omit [LinearOrder κ] in
theorem raise_leafKeys (fresh : ∀ k, node ∉ layout.nodes k) : (layout.raise node).leafKeys = layout.leafKeys := by
  have bottom : (layout.raise node).nodes 0 = layout.nodes 0 := by simp [raise]
  rw [leafKeys, leafKeys, bottom]
  refine flatMap_congr fun other mem => update_of_ne ?_ _ _
  rintro rfl
  exact fresh 0 mem

omit [LinearOrder κ] [DecidableEq α] in
theorem drop_leafKeys (inner : 0 < layout.level) : (layout.drop node).leafKeys = layout.leafKeys := by
  have bottom : (layout.drop node).nodes 0 = layout.nodes 0 := update_of_ne (by omega) _ _
  rw [leafKeys, leafKeys, bottom]
  rfl

theorem setKeys_mem_leafKeys {keys : List κ} (valid : layout.Valid) (mem : node ∈ layout.nodes 0) :
    key ∈ (layout.setKeys node keys).leafKeys ↔ key ∈ keys ∨ (key ∈ layout.leafKeys ∧ key ∉ layout.keys node) := by
  have own : (layout.setKeys node keys).keys node = keys := update_self ..
  have others : ∀ other ≠ node, (layout.setKeys node keys).keys other = layout.keys other :=
    fun other ne => update_of_ne ne _ _
  constructor
  · intro present
    obtain ⟨other, otherMem, inside⟩ := mem_flatMap.mp present
    by_cases same : other = node
    · subst same
      exact Or.inl (own ▸ inside)
    · rw [others other same] at inside
      refine Or.inr ⟨mem_flatMap.mpr ⟨other, otherMem, inside⟩, fun here => same ?_⟩
      exact valid.covers_unique otherMem mem ((valid.leaf otherMem).covers inside)
        ((valid.leaf mem).covers here)
  · rintro (present | ⟨present, absent⟩)
    · exact mem_flatMap.mpr ⟨node, mem, own.symm ▸ present⟩
    · obtain ⟨other, otherMem, inside⟩ := mem_flatMap.mp present
      refine mem_flatMap.mpr ⟨other, otherMem, ?_⟩
      rw [others other fun same => absent (same ▸ inside)]
      exact inside

end Cutting

end Layout

end BlockchainPG.Lib
