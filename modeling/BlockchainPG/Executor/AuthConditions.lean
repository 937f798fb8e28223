import BlockchainPG.Executor.AuthIndexScan
import BlockchainPG.Mbt.Addresses

/-! How `AuthIndexNext` turns the condition of a query into the bounds of a range. -/

namespace BlockchainPG.Executor

open Lib Mbt Vo Access List

def AuthExpr.Holds (expr : AuthExpr) (key : Int) : Prop :=
  match expr.opName with
  | .lt => key < expr.constvalue
  | .le => key ≤ expr.constvalue
  | .eq => key = expr.constvalue
  | .ge => key ≥ expr.constvalue
  | .gt => key > expr.constvalue

instance : ∀ expr, Decidable (AuthExpr.Holds expr key)
  | ⟨.lt, constant⟩ => inferInstanceAs (Decidable (key < constant))
  | ⟨.le, constant⟩ => inferInstanceAs (Decidable (key ≤ constant))
  | ⟨.eq, constant⟩ => inferInstanceAs (Decidable (key = constant))
  | ⟨.ge, constant⟩ => inferInstanceAs (Decidable (key ≥ constant))
  | ⟨.gt, constant⟩ => inferInstanceAs (Decidable (key > constant))

/-- What the condition means. -/
def Condition.Holds (key : Int) : Condition → Prop
  | .op expr => expr.Holds key
  | .and lexpr rexpr => lexpr.Holds key ∧ rexpr.Holds key
  | .or lexpr rexpr => lexpr.Holds key ∨ rexpr.Holds key

instance : ∀ condition, Decidable (Condition.Holds key condition)
  | .op _ => inferInstanceAs (Decidable (AuthExpr.Holds _ _))
  | .and _ _ => inferInstanceAs (Decidable (_ ∧ _))
  | .or _ _ => inferInstanceAs (Decidable (_ ∨ _))

variable {ι ρ : Type}

/-- The tuples that a scan returns in at most `fuel` calls until it hands over the buffers; nothing if it does not. -/
def scanTuples (t : BplusTree) (maps : SharedMaps) (node : AuthIndexScanState ι ρ) :
    Nat → Statics → Option (List ItemPointerData)
  | 0, _ => none
  | fuel + 1, statics =>
    match authIndexNext t maps node statics with
    | some (.tuple _ tid, statics) => (scanTuples t maps node fuel statics).map (tid :: ·)
    | some (.finish .., _) => some []
    | none => none

theorem scanTuples_from (t : BplusTree) (maps : SharedMaps) (node : AuthIndexScanState ι ρ) (opened : Opened)
    (below : item ≤ opened.tuples) (enough : opened.tuples - item < fuel)
    (begins : authIndexNext t maps node statics = nextTuple node.relation ⟨false, some opened, item⟩) :
    scanTuples t maps node fuel statics = some (opened.myvo.itemdata.drop item) := by
  induction fuel generalizing item statics with
  | zero => omega
  | succ fuel ih =>
    have same := nextTuple_opened node.relation opened item
    rw [Nat.mod_eq_of_lt (Nat.lt_succ_of_le below)] at same
    have count : opened.tuples = opened.myvo.itemdata.length := rfl
    rw [scanTuples, begins, same, Opened.answer, Nat.mod_eq_of_lt (Nat.lt_succ_of_le below)]
    by_cases last : item = opened.tuples
    · rw [getElem?_eq_none (by omega), drop_of_length_le (by omega)]
    · have inside : item < opened.myvo.itemdata.length := by omega
      simp only [getElem?_eq_getElem inside, if_neg last]
      rw [ih (by omega) (by omega) rfl, drop_eq_getElem_cons inside]
      rfl

theorem scanTuples_opened {t : BplusTree} {node : AuthIndexScanState ι ρ} (opens : openScan t maps node = some opened)
    (begins : statics.flag = true) (enough : opened.tuples < fuel) :
    scanTuples t maps node fuel statics = some opened.myvo.itemdata := by
  refine scanTuples_from t maps node opened (Nat.zero_le _) enough ?_
  rw [authIndexNext, if_pos begins, opens]
  rfl

/-- The tree is as the search of a range supposes, and the offset numbers hide nothing of it. -/
structure Answerable (t : BplusTree) (lo hi : Int) : Prop where
  guided : GuidedTo t (min lo hi)
  ne : ((t.entriesInOrder.filter fun entry => lo ≤ entry.1 ∧ entry.1 ≤ hi).map
    fun entry => entry.2.ipPosid).IsChain (· ≠ ·)
  low : ∀ last ∈ (t.entriesInOrder.filter fun entry => lo ≤ entry.1 ∧ entry.1 ≤ hi).getLast?, last.2.ipPosid < 100

theorem openScan_query {t : BplusTree} {node : AuthIndexScanState ι ρ}
    (range : bounds node.stack node.condition = (lo, hi)) (opens : openScan t maps node = some opened) :
    0 < t.level ∧ ∃ vo result keys, bplusTreeGetRangeDiskVo t lo hi (rangevoInit node.memory) =
    some (vo, result, keys) ∧
      itemdataOf result = some opened.myvo.itemdata := by
  simp only [openScan, range, Option.bind_eq_bind] at opens
  obtain ⟨myvo, got, opens⟩ := Option.bind_eq_some_iff.mp opens
  obtain ⟨voStr, _, opens⟩ := Option.bind_eq_some_iff.mp opens
  obtain rfl := Option.some.inj opens
  obtain ⟨vo, query⟩ := mbtgettuple_itemdata got
  simp only [authRangeQuery, Option.bind_eq_bind] at query
  obtain ⟨⟨vo', result, keys⟩, found, query⟩ := Option.bind_eq_some_iff.mp query
  obtain ⟨itemdata, items, query⟩ := Option.bind_eq_some_iff.mp query
  obtain ⟨rfl, rfl⟩ := Prod.mk.inj (Option.some.inj query)
  refine ⟨?_, vo', result, keys, found, items⟩
  by_contra flat
  rw [bplusTreeGetRangeDiskVo_flat flat] at found
  cases found

theorem openScan_itemdata {t : BplusTree} {node : AuthIndexScanState ι ρ} (rep : Rep t y)
    (orders : t.order ≤ BPLUS_MAX_ORDER) (sizes : t.entries ≤ BPLUS_MAX_ENTRIES) (answerable : Answerable t lo hi)
    (range : bounds node.stack node.condition = (lo, hi)) (opens : openScan t maps node = some opened) :
    opened.myvo.itemdata = (t.entriesInOrder.filter fun entry => lo ≤ entry.1 ∧ entry.1 ≤ hi).map Prod.snd := by
  obtain ⟨deep, vo, result, keys, found, items⟩ := openScan_query range opens
  have nonempty : result ≠ [] := by
    rintro rfl
    cases items
  have answer := rep.range_answer orders sizes deep lo hi (rep.level ▸ answerable.guided y.root rep.root)
    (rangevoInit node.memory)
  split at answer
  · obtain ⟨vo', same⟩ := answer
    obtain ⟨-, rfl, -⟩ := Prod.mk.inj (Option.some.inj (found.symm.trans same)) |>.imp id Prod.mk.inj
    have complete := (itemdataOf_eq_iff _).mpr
      ⟨nonempty, by rw [map_map]; exact answerable.ne, by grind [Answerable.low]⟩
    exact Option.some.inj (items.symm.trans complete)
  · rw [answer] at found
    cases found

theorem twelveKeys_meets : Meets put (fun t call => KeepsAddresses t call ∧ (put t call).level < BPLUS_MAX_LEVEL)
    (bplusTreeInit { Heap.zeroed with next := 0 } 10 10) twelveKeys := by
  decide +kernel

theorem twelveKeys_answerable : Answerable twelveTree 3 6 where
  guided := by decide +kernel
  ne := by decide +kernel
  low := by decide +kernel

end BlockchainPG.Executor
