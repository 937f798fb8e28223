import BlockchainPG.Lib.CharArray

/-! The threads of `reconstruct_root`. -/

namespace BlockchainPG.Libpq

open Lib

/-- A call of `hashmap_set` for a leaf, with the hash of a group of `vo->data`. -/
structure LeafStore where
  leaf : Int
  group : Int
deriving DecidableEq

/-- The largest `int`. -/
def intMax : Int := 2147483647

/-- The loop of `rr_leaf_node`, `count` turns away from its end. `m` and `node_count` are of type
`int`, and nothing is known of a run in which one of them overflows. -/
def leafLoop : (count : Nat) → (m nodeCount : Int) → Option (List LeafStore)
  | 0, _, _ => some []
  | count + 1, m, nodeCount =>
    if m < intMax ∧ nodeCount < intMax then (leafLoop count (m + 1) (nodeCount + 1)).map (⟨m, nodeCount⟩ :: ·)
    else none

/-- The ids are of type `int64_t`, what is counted from them is cut to an `int`. -/
def rrLeafNode (startId endId : Int) : Option (List LeafStore) :=
  let nodeCount := wrapSigned 4 (if startId = endId then startId else startId + 1)
  let m := wrapSigned 4 (startId + 1)
  leafLoop (endId - m).toNat m nodeCount

/-- Both threads come to their end, and in whichever order they store, each leaf between the two
is stored once, with the hash of its own group. -/
def LeavesStored (startId endId : Int) : Prop :=
  ∃ first second, rrLeafNode startId ((startId + endId).tdiv 2) = some first ∧
    rrLeafNode ((startId + endId).tdiv 2) endId = some second ∧ ∀ stores : List LeafStore,
      stores.Perm (first ++ second) →
      (∀ id, startId < id → id < endId → (stores.map LeafStore.leaf).count id = 1) ∧
        ∀ store ∈ stores, store.group = store.leaf - startId

private theorem leafLoop_eq (count : Nat) (m nodeCount : Int) : leafLoop count m nodeCount =
    if count = 0 ∨ m + count ≤ intMax ∧ nodeCount + count ≤ intMax then
      some ((List.range count).map fun i => ⟨m + i, nodeCount + i⟩) else none := by
  induction count generalizing m nodeCount with
  | zero => rfl
  | succ count ih =>
    rw [leafLoop, ih, List.range_succ_eq_map, List.map_cons, List.map_map]
    by_cases fits : m + (count + 1 : Nat) ≤ intMax ∧ nodeCount + (count + 1 : Nat) ≤ intMax
    · rw [if_pos (by omega), if_pos (by omega), if_pos (by omega), Option.map_some]
      congr 2
      · simp
      · refine List.map_congr_left fun i _ => ?_
        simp only [Function.comp_apply, LeafStore.mk.injEq]
        omega
    · rw [if_neg (by omega : ¬(count + 1 = 0 ∨ _))]
      split
      · rw [if_neg (by omega), Option.map_none]
      · rfl

/-- A thread comes to its end just if its ids and the one behind its start are of type `int`; it takes a
leaf's own id for the number of its group. -/
private theorem rrLeafNode_eq (start : 0 ≤ startId) (ordered : startId ≤ endId) : rrLeafNode startId endId =
    if startId < intMax ∧ endId ≤ intMax then
      some ((List.range (endId - (startId + 1)).toNat).map fun i => ⟨startId + 1 + i, startId + 1 + i⟩)
    else none := by
  have cut (value : Int) : wrapSigned 4 value = (value + 2147483648) % 4294967296 - 2147483648 := by
    rw [wrapSigned, BitVec.toInt_ofInt, Int.bmod_eq_emod]
    norm_num
    split <;> omega
  rw [rrLeafNode, leafLoop_eq, cut, cut]
  unfold intMax
  by_cases fits : startId < 2147483647 ∧ endId ≤ 2147483647
  · have first : (startId + 1 + 2147483648) % 4294967296 - 2147483648 = startId + 1 := by omega
    rw [first, if_pos fits]
    by_cases empty : (endId - (startId + 1)).toNat = 0
    · simp [empty]
    · rw [if_neg (by omega : ¬startId = endId), first, if_pos (by omega)]
  · rw [if_neg fits]
    by_cases same : startId = endId
    · rw [if_pos same, if_neg (by omega)]
    · rw [if_neg same, if_neg (by omega)]

end BlockchainPG.Libpq
